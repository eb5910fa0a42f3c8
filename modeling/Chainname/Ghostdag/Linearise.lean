import Chainname.Ghostdag.Invariant
import Chainname.Ghostdag.Ordering

/-!
# Every block is merged exactly once, after its parents

`linearise D tip` walks the selected parent chain from genesis up to `tip` and
concatenates the base sequences of its blocks. The chain of a block is the block on top of
its selected parent's chain, so the linearisation of a block extends that of its selected
parent by the merge set and the block, and a step of the induction only has to look at
these three parts: the selected parent's past, the merge set outside it, and the block
above both.
-/

namespace Chainname.DagStore

section Chain

variable [HeaderHash] {D : DagStore}

/-! ### The chain -/

/-- Blocks on the way down have smaller heights, so any two sufficient bounds give the
same walk. -/
theorem Valid.chainWalk_fuel (hD : D.Valid) : ∀ (n n' : ℕ) (cursor : BlockHash),
    D.topologicalHeight cursor < n → D.topologicalHeight cursor < n' →
    D.chainWalk n cursor = D.chainWalk n' cursor := by
  intro n
  induction n with
  | zero => intro n' cursor h; exact absurd h (Nat.not_lt_zero _)
  | succ n ih =>
    intro n' cursor h h'
    obtain ⟨n', rfl⟩ : ∃ m, n' = m + 1 := ⟨n' - 1, by omega⟩
    unfold chainWalk
    by_cases hg : cursor = D.genesis
    · rw [if_pos hg, if_pos hg]
    rw [if_neg hg, if_neg hg]
    cases hdata : D.data.lookup cursor with
    | none => rfl
    | some data =>
      have hlt := hD.layered.height_lt (hD.selected_edge hdata hg)
      dsimp only
      rw [ih n' data.selectedParent (by omega) (by omega)]

omit [HeaderHash] in
theorem selectedParentChain_genesis (D : DagStore) :
    D.selectedParentChain D.genesis = [D.genesis] := by
  unfold selectedParentChain chainWalk
  rw [if_pos rfl]

/-- The chain of a block is the block on top of its selected parent's chain. -/
theorem Valid.selectedParentChain_cons (hD : D.Valid) {b : BlockHash} {data : GhostdagData}
    (hdata : D.data.lookup b = some data) (hne : b ≠ D.genesis) :
    D.selectedParentChain b = b :: D.selectedParentChain data.selectedParent := by
  have hlt := hD.layered.height_lt (hD.selected_edge hdata hne)
  calc D.selectedParentChain b
      = b :: D.chainWalk (D.topologicalHeight b) data.selectedParent := by
        unfold selectedParentChain
        rw [chainWalk, if_neg hne, hdata]
    _ = b :: D.selectedParentChain data.selectedParent := by
        unfold selectedParentChain
        rw [hD.chainWalk_fuel _ (D.topologicalHeight data.selectedParent + 1) _ hlt
          (Nat.lt_succ_self _)]

/-! ### The linearisation -/

/-- The base sequences along the selected parent chain, from genesis up to `tip`. -/
def linearise (D : DagStore) (tip : BlockHash) : List BlockHash :=
  (D.selectedParentChain tip).reverse.flatMap D.baseSequence

theorem Valid.linearise_genesis (hD : D.Valid) : D.linearise D.genesis = [D.genesis] := by
  obtain ⟨genesis, -, hg⟩ := hD.genesis_stored
  unfold linearise baseSequence
  rw [selectedParentChain_genesis, List.reverse_singleton, List.flatMap_singleton, hg]
  rfl

theorem Valid.linearise_cons (hD : D.Valid) {b : BlockHash} {data : GhostdagData}
    (hdata : D.data.lookup b = some data) (hne : b ≠ D.genesis) :
    D.linearise b = D.linearise data.selectedParent ++ (data.mergesetOrdered ++ [b]) := by
  unfold linearise
  rw [hD.selectedParentChain_cons hdata hne, List.reverse_cons, List.flatMap_append,
    List.flatMap_singleton]
  unfold baseSequence
  rw [hdata]

/-- What a linearisation of a block's past is: the block and its ancestors, each once,
none before an ancestor of it. -/
structure Linearises (D : DagStore) (tip : BlockHash) (l : List BlockHash) : Prop where
  nodup : l.Nodup
  mem_iff : ∀ {x}, x ∈ l ↔ D.Anc x tip
  ancestors_first : l.Pairwise fun a b => ¬ D.Anc b a

omit [HeaderHash] in
/-- Genesis alone linearises genesis. -/
theorem Linearises.genesis (D : DagStore) : D.Linearises D.genesis [D.genesis] where
  nodup := List.nodup_singleton _
  mem_iff := by
    intro x
    rw [List.mem_singleton]
    exact ⟨fun h => h ▸ Anc.refl _, Anc.eq_genesis⟩
  ancestors_first := List.pairwise_singleton _ _

/-- **One chain block.** A linearisation of the selected parent, then the merge set, then
the block, linearises the block. -/
theorem Linearises.extend (hD : D.Valid) {b : BlockHash} {data : GhostdagData} {l : List BlockHash}
    (hdata : D.data.lookup b = some data) (hne : b ≠ D.genesis)
    (hl : D.Linearises data.selectedParent l) :
    D.Linearises b (l ++ (data.mergesetOrdered ++ [b])) := by
  obtain ⟨header, hh⟩ := Maps.mem_iff_exists_lookup.mp (hD.data_mem.mp (Maps.mem_of_lookup hdata))
  have hdesc := hD.describes hh hne hdata
  have hm := hdesc.mergeset
  have hedge : ∀ {p}, p ∈ header.parents → D.Edge p b := fun hp => ⟨header, hh, hne, hp⟩
  have hsel := hedge hdesc.selected_mem
  -- everything before the block lies strictly behind it
  have hbelow : ∀ x, x ∈ l ∨ x ∈ data.mergesetOrdered → ∃ p, D.Edge p b ∧ D.Anc x p := by
    rintro x (hx | hx)
    · exact ⟨_, hsel, hl.mem_iff.mp hx⟩
    · obtain ⟨⟨p, hp, hxp⟩, -⟩ := hm.mem_iff.mp hx
      exact ⟨p, hedge hp, hxp⟩
  have hnot : ∀ x, x ∈ l ∨ x ∈ data.mergesetOrdered → ¬ D.Anc b x := by
    intro x hx hbx
    obtain ⟨p, hp, hxp⟩ := hbelow x hx
    have hle := (hbx.trans hxp).height_le hD.layered
    exact absurd (hD.layered.height_lt hp) (not_lt.mpr hle)
  have hsplit : ∀ x ∈ l, ∀ y ∈ data.mergesetOrdered, ¬ D.Anc y x := fun x hx y hy hyx =>
    (hm.mem_iff.mp hy).2 (hyx.trans (hl.mem_iff.mp hx))
  refine ⟨?_, ?_, ?_⟩
  · refine List.nodup_append.mpr ⟨hl.nodup, List.nodup_append.mpr ⟨hm.nodup,
      List.nodup_singleton _, ?_⟩, ?_⟩
    · rintro x hx y hy rfl
      exact hnot x (Or.inr hx) (List.mem_singleton.mp hy ▸ Anc.refl _)
    · rintro x hx y hy rfl
      rcases List.mem_append.mp hy with hy | hy
      · exact hsplit x hx x hy (Anc.refl _)
      · exact hnot x (Or.inl hx) (List.mem_singleton.mp hy ▸ Anc.refl _)
  · intro x
    rw [List.mem_append, List.mem_append, List.mem_singleton, ← or_assoc]
    refine ⟨?_, ?_⟩
    · rintro (hx | rfl)
      · obtain ⟨p, hp, hxp⟩ := hbelow x hx
        exact hxp.trans hp.anc
      · exact Anc.refl _
    · intro hxb
      by_cases he : x = b
      · exact Or.inr he
      refine Or.inl ?_
      obtain ⟨p, ⟨header', hh', -, hp⟩, hxp⟩ := hxb.exists_parent he
      obtain rfl : header' = header := Option.some.inj (hh'.symm.trans hh)
      -- behind some parent: merged with the selected parent, or in the merge set
      by_cases hsp : D.Anc x data.selectedParent
      · exact Or.inl (hl.mem_iff.mpr hsp)
      · exact Or.inr (hm.mem_iff.mpr ⟨⟨p, hp, hxp⟩, hsp⟩)
  · refine List.pairwise_append.mpr ⟨hl.ancestors_first, List.pairwise_append.mpr
      ⟨hm.ancestors_first, List.pairwise_singleton _ _, ?_⟩, ?_⟩
    · intro x hx y hy
      rw [List.mem_singleton.mp hy]
      exact hnot x (Or.inr hx)
    · intro x hx y hy
      rcases List.mem_append.mp hy with hy | hy
      · exact hsplit x hx y hy
      · rw [List.mem_singleton.mp hy]
        exact hnot x (Or.inl hx)

/-- The walk from genesis linearises every stored block. -/
theorem Valid.linearises (hD : D.Valid) {tip : BlockHash} (ht : tip ∈ D.headers) :
    D.Linearises tip (D.linearise tip) := by
  induction tip using hD.layered.wellFounded.induction with
  | _ b ih =>
    by_cases hne : b = D.genesis
    · rw [hne, hD.linearise_genesis]
      exact Linearises.genesis D
    · obtain ⟨data, hdata⟩ := Maps.mem_iff_exists_lookup.mp (hD.data_mem.mpr ht)
      rw [hD.linearise_cons hdata hne]
      exact (ih _ (hD.selected_edge hdata hne) (hD.selected_mem hdata)).extend hD hdata hne

/-- The ordered merge set of a stored block is its past without that of its selected parent
and without the selected parent. -/
theorem Valid.mem_mergesetOrdered (hD : D.Valid) {b : BlockHash} {data : GhostdagData}
    (hdata : D.data.lookup b = some data) {x : BlockHash} :
    x ∈ data.mergesetOrdered ↔
      (D.Anc x b ∧ x ≠ b) ∧ ¬ (D.Anc x data.selectedParent ∧ x ≠ data.selectedParent) ∧
        x ≠ data.selectedParent := by
  have hb := hD.data_mem.mp (Maps.mem_of_lookup hdata)
  -- genesis merges nothing and has nothing behind it
  by_cases hne : b = D.genesis
  · obtain ⟨genesis, -, hg⟩ := hD.genesis_stored
    rw [hne, hg] at hdata
    rw [← Option.some.inj hdata, hne]
    refine iff_of_false List.not_mem_nil ?_
    rintro ⟨⟨hx, hx'⟩, -⟩
    exact hx' hx.eq_genesis
  have hext := (hD.linearises (hD.selected_mem hdata)).extend hD hdata hne
  have hnd := List.nodup_append.mp hext.nodup
  have hnd' := List.nodup_append.mp hnd.2.1
  refine ⟨?_, ?_⟩
  · -- a merged block is in the order of `b`, yet not in the selected parent's
    intro hx
    have hns : x ∉ D.linearise data.selectedParent := fun h =>
      hnd.2.2 x h x (List.mem_append_left _ hx) rfl
    rw [(hD.linearises (hD.selected_mem hdata)).mem_iff] at hns
    refine ⟨⟨hext.mem_iff.mp (List.mem_append_right _ (List.mem_append_left _ hx)), ?_⟩,
      fun h => hns h.1, fun h => hns (h ▸ Anc.refl _)⟩
    exact fun h => hnd'.2.2 x hx b List.mem_cons_self h
  · -- what is behind `b` alone was appended when `b` was linearised
    rintro ⟨⟨hxb, hx'⟩, hns, hsp⟩
    have hmem := hext.mem_iff.mpr hxb
    rcases List.mem_append.mp hmem with h | h
    · exact absurd ⟨(hD.linearises (hD.selected_mem hdata)).mem_iff.mp h, hsp⟩ hns
    · exact (List.mem_append.mp h).resolve_right fun h => hx' (List.mem_singleton.mp h)

/-- **Every block is merged exactly once, after its parents.** In every store built by
`add_block` calls, the base sequences along the selected parent chain of a stored block
`tip` list `tip` and its ancestors, each once, every block after each of its parents; and
the ordered merge set of a stored block is exactly what its past has beyond the selected
parent and the selected parent's past. -/
theorem merged_once_after_parents (genesis : Header) (k : UInt16) (limit : ℕ)
    (calls : List Header) :
    let D := (new genesis k limit).addBlocks calls
    ∀ tip ∈ D.headers,
      (D.linearise tip).Nodup ∧ (∀ x, x ∈ D.linearise tip ↔ D.Anc x tip) ∧
        (∀ p c, D.Edge p c → c ∈ D.linearise tip →
          p ∈ D.linearise tip ∧ (D.linearise tip).idxOf p < (D.linearise tip).idxOf c) ∧
        ∀ c data, D.data.lookup c = some data → ∀ x, x ∈ data.mergesetOrdered ↔
          (D.Anc x c ∧ x ≠ c) ∧ ¬ (D.Anc x data.selectedParent ∧ x ≠ data.selectedParent) ∧
            x ≠ data.selectedParent := by
  intro D tip ht
  have hD : D.Valid := (new_valid genesis k limit).addBlocks calls
  have hl := hD.linearises ht
  refine ⟨hl.nodup, fun x => hl.mem_iff, ?_, fun c data hdata x => hD.mem_mergesetOrdered hdata⟩
  intro p c hpc hc
  have hp : p ∈ D.linearise tip := hl.mem_iff.mpr (hpc.anc.trans (hl.mem_iff.mp hc))
  -- an edge goes up in height, so its ends differ
  have hne : p ≠ c := by
    rintro rfl
    exact lt_irrefl _ (hD.layered.height_lt hpc)
  exact ⟨hp, TopoSort.idxOf_lt hl.ancestors_first hp hc hpc.anc hne⟩

end Chain

section Diamond

open Sample

/-- The chain of the diamond's top, linearised. -/
theorem merged_once_after_parents_diamond :
    let D := (new root 2 10).addBlocks diamond
    (D.linearise (hashOf 3)).Nodup ∧ (∀ x, x ∈ D.linearise (hashOf 3) ↔ D.Anc x (hashOf 3)) ∧
      D.linearise (hashOf 3) = [hashOf 0, hashOf 2, hashOf 1, hashOf 3] := by
  have h := merged_once_after_parents root 2 10 diamond (hashOf 3) (by decide +kernel)
  exact ⟨h.1, h.2.1, by decide +kernel⟩

end Diamond

end Chainname.DagStore
