import Chainname.Ghostdag.Linearise

/-!
# Growth

A store that grows keeps what it said about its blocks: headers, data, selected parent
chains and base sequences (`AgreeOn` at the stored blocks, for any number of `add_block`
calls). The same transfer serves two stores that agree behind a block.

The virtual selected parent is a tip, so it is never strictly behind a stored block.
-/

namespace Chainname.DagStore

/-! ### What agreeing stores say alike -/

section Agree

variable [HeaderHash] {P : BlockHash → Prop} {D₁ D₂ : DagStore}

omit [HeaderHash] in
theorem AgreeOn.trans {D₃ : DagStore} (h : AgreeOn P D₁ D₂) (h' : AgreeOn P D₂ D₃) :
    AgreeOn P D₁ D₃ where
  k_eq := h.k_eq.trans h'.k_eq
  genesis_eq := h.genesis_eq.trans h'.genesis_eq
  limit_eq := h.limit_eq.trans h'.limit_eq
  header_eq hb := (h.header_eq hb).trans (h'.header_eq hb)
  data_eq hb := (h.data_eq hb).trans (h'.data_eq hb)
  mem := h.mem
  closed := h.closed
  selected := h.selected

omit [HeaderHash] in
/-- What two stores say alike stays so when the second one grows. -/
theorem AgreeOn.grow {D₃ : DagStore} (h : AgreeOn P D₁ D₂)
    (h' : AgreeOn (· ∈ D₂.headers) D₂ D₃) : AgreeOn P D₁ D₃ where
  k_eq := h.k_eq.trans h'.k_eq
  genesis_eq := h.genesis_eq.trans h'.genesis_eq
  limit_eq := h.limit_eq.trans h'.limit_eq
  header_eq hb := (h.header_eq hb).trans (h'.header_eq (h.mem' hb))
  data_eq hb := (h.data_eq hb).trans (h'.data_eq (h.mem' hb))
  mem := h.mem
  closed := h.closed
  selected := h.selected

omit [HeaderHash] in
theorem AgreeOn.chainWalk_eq (h : AgreeOn P D₁ D₂) : ∀ (n : ℕ) (cursor : BlockHash), P cursor →
    D₁.chainWalk n cursor = D₂.chainWalk n cursor := by
  intro n
  induction n with
  | zero => exact fun _ _ => rfl
  | succ n ih =>
    intro cursor hc
    unfold chainWalk
    rw [← h.genesis_eq, ← h.data_eq hc]
    cases hdata : D₁.data.lookup cursor with
    | none => rfl
    | some data =>
      dsimp only
      rw [ih data.selectedParent (h.selected hc hdata)]

omit [HeaderHash] in
theorem AgreeOn.selectedParentChain_eq (h : AgreeOn P D₁ D₂) {b : BlockHash} (hb : P b) :
    D₁.selectedParentChain b = D₂.selectedParentChain b := by
  unfold selectedParentChain
  rw [h.topologicalHeight_eq hb, h.chainWalk_eq _ _ hb]

omit [HeaderHash] in
theorem AgreeOn.baseSequence_eq (h : AgreeOn P D₁ D₂) {b : BlockHash} (hb : P b) :
    D₁.baseSequence b = D₂.baseSequence b := by
  unfold baseSequence
  rw [h.data_eq hb]

/-- The blocks of a base sequence lie behind the chain block. -/
theorem Valid.anc_of_mem_baseSequence (hD : D₁.Valid) {b x : BlockHash} (hb : b ∈ D₁.headers)
    (hx : x ∈ D₁.baseSequence b) : D₁.Anc x b := by
  obtain ⟨data, hdata⟩ := Maps.mem_iff_exists_lookup.mp (hD.data_mem.mpr hb)
  unfold baseSequence at hx
  rw [hdata] at hx
  dsimp only at hx
  rw [List.mem_append, List.mem_singleton] at hx
  obtain hx | rfl := hx
  · by_cases hne : b = D₁.genesis
    · obtain ⟨genesis, -, hg⟩ := hD.genesis_stored
      rw [hne, hg] at hdata
      rw [← Option.some.inj hdata] at hx
      exact absurd hx List.not_mem_nil
    · obtain ⟨header, hl⟩ := Maps.mem_iff_exists_lookup.mp hb
      obtain ⟨⟨p, hp, hxp⟩, -⟩ := (hD.describes hl hne hdata).mergeset.mem_iff.mp hx
      exact hxp.trans (show D₁.Edge p b from ⟨header, hl, hne, hp⟩).anc
  · exact Anc.refl x

end Agree

/-! ### Adding blocks -/

section Grow

variable [HeaderHash] {D : DagStore} (hD : D.Valid)

include hD

/-- A call of `add_block` keeps what the store says about its blocks. -/
theorem Valid.addBlock_agree (header : Header) :
    AgreeOn (· ∈ D.headers) D (D.addBlock header).1 := by
  obtain ⟨cache, hc, ⟨e, he⟩ | ⟨data, hf, -, he⟩⟩ := addBlock_cases hD header
  · rw [he]
    exact hD.agree_withCache cache
  · rw [he]
    refine (hD.agree_withCache cache).trans ?_
    exact agree_install (hD.toSound.withCache cache) ⟨hf.not_mem, hf.parents_ne_nil, hf.parent_mem⟩

omit [HeaderHash] hD in
/-- A header with a single parent has an empty merge set. -/
theorem computeGhostdag_single [HeaderHash] {header : Header} {p : BlockHash}
    {selectedData : GhostdagData} (hparents : header.parents = [p])
    (hdata : D.data.lookup p = some selectedData) :
    D.computeGhostdag (m := Id) D.truth header
      = .ok (D.assemble header p selectedData (D.topologicalSort []) (Colouring.start p)) := by
  have hselected : D.selectParent header.parents = p := by
    rw [hparents]
    rfl
  have hstart : Worklist.push (header.parents.filter (· ≠ p)) ∅ [] = (∅, []) := by
    simp [hparents, Worklist.push]
  -- with the selected parent left out nothing is queued, whatever the fuel
  have hcollect : D.collectMergeset (m := Id) D.truth header.hash p D.len ∅ [] [] = .ok [] := by
    cases D.len with
    | zero => rfl
    | succ n => rfl
  have hmergeset : D.orderedMergeset (m := Id) D.truth header p
      = .ok (D.topologicalSort []) := by
    show Except.map _ (D.collectMergeset (m := Id) D.truth header.hash p D.len _ _ []) = _
    rw [hstart, hcollect]
    rfl
  unfold computeGhostdag
  dsimp only
  rw [hselected, hdata]
  dsimp only
  rw [Memo.id_bind, hmergeset]
  rfl

omit [HeaderHash] hD in
variable (D) in
/-- What a store is after a block has joined on top of `p` alone. -/
structure OnTop [HeaderHash] (p : BlockHash) (header : Header) (D' : DagStore) : Prop where
  headers : D'.headers = D.headers.insert header.hash header
  tips : D'.tips = insert header.hash (D.tips.erase p)
  data : ∃ data, D'.data.lookup header.hash = some data ∧ data.selectedParent = p ∧
    data.blueWork = U256.saturatingAdd (D.blueWork p) (headerWork header) ∧
    data.topologicalHeight = D.topologicalHeight p + 1

/-- **A new header over one stored block joins**, whatever `k` and the merge-set limit, and is on
top then. -/
theorem Valid.addBlock_onTop {header : Header} {p : BlockHash} (hparents : header.parents = [p])
    (hp : p ∈ D.headers) (hnew : header.hash ∉ D.headers) :
    (D.addBlock header).2 = .ok header.hash ∧ D.OnTop p header (D.addBlock header).1 := by
  have hf : D.Fresh header := by
    refine ⟨hnew, ?_, ?_⟩
    · rw [hparents]
      exact List.cons_ne_nil _ _
    · rw [hparents]
      simpa using hp
  obtain ⟨cache, -, hadd⟩ := hD.addBlock_of_fresh hD.layered.answers hD.cache_ok hf
  obtain ⟨selectedData, hdata⟩ := Maps.mem_iff_exists_lookup.mp (hD.data_mem.mpr hp)
  rw [computeGhostdag_single hparents hdata] at hadd
  rw [hadd]
  -- the new tip, the new work and the new height are read off `assemble`
  refine ⟨rfl, rfl, ?_, _, Finmap.lookup_insert _, rfl, ?_, ?_⟩
  · show insert header.hash (header.parents.foldl Finset.erase D.tips) = _
    rw [hparents]
    rfl
  · show U256.saturatingAdd selectedData.blueWork (headerWork header) = _
    unfold blueWork
    rw [hdata]
    rfl
  · show (header.parents.map D.topologicalHeight).foldr max 0 + 1 = _
    rw [hparents]
    simp

/-! ### The chain of a stored block -/

/-- A block of the chain lies behind its head. -/
theorem Valid.anc_of_mem_chain {b x : BlockHash} (hb : b ∈ D.headers)
    (hx : x ∈ D.selectedParentChain b) : D.Anc x b := by
  -- down the selected chain
  induction b using hD.layered.wellFounded.induction with
  | _ b ih =>
    by_cases hne : b = D.genesis
    · rw [hne, selectedParentChain_genesis, List.mem_singleton] at hx
      rw [hx, hne]
      exact Anc.refl _
    obtain ⟨data, hdata⟩ := Maps.mem_iff_exists_lookup.mp (hD.data_mem.mpr hb)
    have hedge := hD.selected_edge hdata hne
    rw [hD.selectedParentChain_cons hdata hne, List.mem_cons] at hx
    obtain rfl | hx := hx
    · exact Anc.refl x
    · exact (ih _ hedge (hD.selected_mem hdata) hx).trans hedge.anc

/-- The chain of a stored block without genesis, newest first. -/
theorem Valid.chain_eq_dropLast {b : BlockHash} (hb : b ∈ D.headers) :
    D.selectedParentChain b = (D.selectedParentChain b).dropLast ++ [D.genesis] := by
  -- down the selected chain: its rest is never empty, so the last block is the rest's
  induction b using hD.layered.wellFounded.induction with
  | _ b ih =>
    by_cases hne : b = D.genesis
    · rw [hne, selectedParentChain_genesis]
      rfl
    obtain ⟨data, hdata⟩ := Maps.mem_iff_exists_lookup.mp (hD.data_mem.mpr hb)
    have hrest := ih _ (hD.selected_edge hdata hne) (hD.selected_mem hdata)
    have hcons := hD.selectedParentChain_cons hdata hne
    have hne' : D.selectedParentChain data.selectedParent ≠ [] := by
      rw [hrest]
      exact List.append_ne_nil_of_right_ne_nil _ (List.cons_ne_nil _ _)
    rw [hcons, List.dropLast_cons_of_ne_nil hne', List.cons_append, ← hrest]

/-- The chain of a stored block starts with it. -/
theorem Valid.head?_chain {b : BlockHash} (hb : b ∈ D.headers) :
    (D.selectedParentChain b).head? = some b := by
  by_cases hne : b = D.genesis
  · rw [hne, selectedParentChain_genesis]
    rfl
  · obtain ⟨data, hdata⟩ := Maps.mem_iff_exists_lookup.mp (hD.data_mem.mpr hb)
    rw [hD.selectedParentChain_cons hdata hne]
    rfl

/-- The chain, the height and the blue work of a block on top of another. -/
theorem Valid.onTop_facts {header : Header} {p : BlockHash} (hparents : header.parents = [p])
    (hp : p ∈ D.headers) (hnew : header.hash ∉ D.headers) :
    (D.addBlock header).1.selectedParentChain header.hash
        = header.hash :: D.selectedParentChain p ∧
      (D.addBlock header).1.topologicalHeight header.hash = D.topologicalHeight p + 1 ∧
      (D.addBlock header).1.blueWork header.hash
        = U256.saturatingAdd (D.blueWork p) (headerWork header) := by
  obtain ⟨-, hontop⟩ := hD.addBlock_onTop hparents hp hnew
  have hagree := hD.addBlock_agree header
  have hvalid := hD.addBlock header
  obtain ⟨data, hdata, hselected, hwork, hheight⟩ := hontop.data
  have hne : header.hash ≠ (D.addBlock header).1.genesis := by
    -- a block that is not stored yet is not the genesis
    rw [← hagree.genesis_eq]
    exact fun he => hnew (he ▸ hD.genesis_mem)
  refine ⟨?_, ?_, ?_⟩
  · rw [hvalid.selectedParentChain_cons hdata hne, hselected, ← hagree.selectedParentChain_eq hp]
  · unfold topologicalHeight at hheight ⊢
    rw [hdata]
    exact hheight
  · unfold blueWork at hwork ⊢
    rw [hdata]
    exact hwork

/-! ### The virtual selected parent -/

/-- A store has a tip: a block of greatest height has no child. -/
theorem Valid.tips_nonempty : D.tips.Nonempty := by
  obtain ⟨b, hb, hmax⟩ := Finset.exists_max_image D.headers.keys D.topologicalHeight
    ⟨D.genesis, Finmap.mem_keys.mpr hD.genesis_mem⟩
  refine ⟨b, hD.mem_tips.mpr ⟨Finmap.mem_keys.mp hb, fun c hc => ?_⟩⟩
  have hle := hmax c (Finmap.mem_keys.mpr hc.mem)
  exact absurd (hD.layered.height_lt hc) (not_lt.mpr hle)

omit [HeaderHash] hD in
theorem mem_sortedTips {b : BlockHash} : b ∈ D.sortedTips ↔ b ∈ D.tips := by
  unfold sortedTips
  rw [List.mem_insertionSort, Maps.mem_sortedKeys]

omit [HeaderHash] hD in
theorem nodup_sortedTips (D : DagStore) : D.sortedTips.Nodup := by
  unfold sortedTips
  refine (List.perm_insertionSort _ _).nodup_iff.mpr ?_
  exact Maps.nodup_sortedKeys D.tips

omit [HeaderHash] hD in
/-- Where there is a tip, the virtual selected parent is the first of the sorted tips. -/
theorem exists_sortedTips_cons {b : BlockHash} (hb : b ∈ D.tips) :
    ∃ rest, D.sortedTips = D.virtualSelectedParent :: rest := by
  unfold virtualSelectedParent
  cases htips : D.sortedTips with
  | nil =>
    have h := mem_sortedTips.mpr hb
    rw [htips] at h
    exact absurd h List.not_mem_nil
  | cons first rest => exact ⟨rest, rfl⟩

/-- The virtual selected parent is a tip. -/
theorem Valid.virtualSelectedParent_mem : D.virtualSelectedParent ∈ D.tips := by
  obtain ⟨b, hb⟩ := hD.tips_nonempty
  obtain ⟨rest, htips⟩ := exists_sortedTips_cons hb
  refine mem_sortedTips.mp ?_
  rw [htips]
  exact List.mem_cons_self

omit [HeaderHash] hD in
/-- A tip with more blue work than every other tip is the virtual selected parent. -/
theorem virtualSelectedParent_eq {b : BlockHash} (hb : b ∈ D.tips)
    (hmax : ∀ c ∈ D.tips, c ≠ b → D.blueWork c < D.blueWork b) : D.virtualSelectedParent = b := by
  have hsorted := List.pairwise_insertionSort (fun a b => D.compareBlocks b a ≠ .gt)
    (Maps.sortedKeys D.tips)
  obtain ⟨rest, htips⟩ := exists_sortedTips_cons hb
  -- if another tip came first, the tip of most work would stand behind a lighter one
  by_contra hne
  have hfirst : D.virtualSelectedParent ∈ D.tips :=
    mem_sortedTips.mp (htips ▸ List.mem_cons_self)
  have hmem : b ∈ rest := by
    have h := mem_sortedTips.mpr hb
    rw [htips] at h
    exact (List.mem_cons.mp h).resolve_left (Ne.symm hne)
  change D.sortedTips.Pairwise _ at hsorted
  rw [htips] at hsorted
  have hle := compareBlocks_ne_gt.mp (List.rel_of_pairwise_cons hsorted hmem)
  have hlt := hmax _ hfirst hne
  omega

/-- A block on top of one parent that brings more work than any tip has is selected, and no tip
has more work then. -/
theorem Valid.addBlock_heaviest {header : Header} {p : BlockHash} (hparents : header.parents = [p])
    (hp : p ∈ D.headers) (hnew : header.hash ∉ D.headers) {w : ℕ}
    (hw : ∀ c ∈ D.tips, D.blueWork c ≤ w)
    (hlt : w < U256.saturatingAdd (D.blueWork p) (headerWork header)) :
    (D.addBlock header).1.virtualSelectedParent = header.hash ∧
      ∀ c ∈ (D.addBlock header).1.tips, (D.addBlock header).1.blueWork c
        ≤ U256.saturatingAdd (D.blueWork p) (headerWork header) := by
  obtain ⟨-, hontop⟩ := hD.addBlock_onTop hparents hp hnew
  obtain ⟨-, -, hwork⟩ := hD.onTop_facts hparents hp hnew
  -- a tip that was there before has the work it had
  have hold : ∀ c ∈ (D.addBlock header).1.tips, c ≠ header.hash →
      (D.addBlock header).1.blueWork c ≤ w := by
    intro c hc hne
    rw [hontop.tips] at hc
    have hctip := Finset.mem_of_mem_erase ((Finset.mem_insert.mp hc).resolve_left hne)
    rw [← (hD.addBlock_agree header).blueWork_eq (hD.mem_tips.mp hctip).1]
    exact hw c hctip
  refine ⟨virtualSelectedParent_eq ?_ fun c hc hne => ?_, fun c hc => ?_⟩
  · rw [hontop.tips]
    exact Finset.mem_insert_self _ _
  · rw [hwork]
    exact Nat.lt_of_le_of_lt (hold c hc hne) hlt
  · by_cases hne : c = header.hash
    · rw [hne, hwork]
    · exact (hold c hc hne).trans hlt.le

/-- Nothing stored is strictly ahead of the virtual selected parent. -/
theorem Valid.eq_of_virtualSelectedParent_anc {b : BlockHash}
    (h : D.Anc D.virtualSelectedParent b) : b = D.virtualSelectedParent := by
  by_contra hne
  obtain ⟨c, hc, -⟩ := h.exists_child (Ne.symm hne)
  exact (hD.mem_tips.mp hD.virtualSelectedParent_mem).2 c hc

end Grow

end Chainname.DagStore
