import Chainname.Ghostdag.Invariant

/-!
# Consensus does not depend on insertion order

Two nodes that were handed blocks in different orders, with different refusals in
between and different memo tables, hold the same data for a block as soon as they agree on
the headers in its past (`Valid.data_eq_of_past`). The induction is over the past of the
block: the parents' pasts agree, hence so does the parents' data, hence by locality so does
what is computed for the block.

What a node derives from the data, its tips, its virtual selected parent and the selected
parent chains, then agrees too when the nodes hold the same blocks.
-/

namespace Chainname.DagStore

section Two

variable [HeaderHash] {D₁ D₂ : DagStore}

/-- The stores hold the same headers for `b` and everything behind it. -/
def PastAgrees (D₁ D₂ : DagStore) (b : BlockHash) : Prop :=
  ∀ a, D₁.Anc a b → D₁.headers.lookup a = D₂.headers.lookup a

omit [HeaderHash] in
theorem PastAgrees.of_anc {a b : BlockHash} (h : PastAgrees D₁ D₂ b) (hab : D₁.Anc a b) :
    PastAgrees D₁ D₂ a :=
  fun x hx => h x (hx.trans hab)

/-- Blocks whose past agrees, and the data behind them, are common to both stores. -/
theorem agreeOn_of_parents (hD₁ : D₁.Valid) (hk : D₁.k = D₂.k) (hg : D₁.genesis = D₂.genesis)
    (hl : D₁.mergesetSizeLimit = D₂.mergesetSizeLimit) {b : BlockHash}
    (hpast : PastAgrees D₁ D₂ b)
    (hdata : ∀ p, D₁.Edge p b → ∀ a, D₁.Anc a p → D₁.data.lookup a = D₂.data.lookup a) :
    AgreeOn (fun x => ∃ p, D₁.Edge p b ∧ D₁.Anc x p) D₁ D₂ where
  k_eq := hk
  genesis_eq := hg
  limit_eq := hl
  header_eq := by
    rintro x ⟨p, hp, hx⟩
    exact hpast x (hx.trans hp.anc)
  data_eq := by
    rintro x ⟨p, hp, hx⟩
    exact hdata p hp x hx
  mem := by
    rintro x ⟨p, hp, hx⟩
    exact hx.mem hD₁.layered.toRooted (hD₁.parent_mem hp)
  closed := by
    rintro q c ⟨p, hp, hc⟩ hqc
    exact ⟨p, hp, hqc.anc.trans hc⟩
  -- the selected parent of a block of the past is in the past as well
  selected := by
    rintro x data ⟨p, hp, hx⟩ hdata
    by_cases hne : x = D₁.genesis
    · obtain ⟨genesis, -, hgd⟩ := hD₁.genesis_stored
      rw [hne, hgd] at hdata
      rw [← Option.some.inj hdata]
      exact ⟨p, hp, hne ▸ hx⟩
    · exact ⟨p, hp, (hD₁.selected_edge hdata hne).anc.trans hx⟩

section Past

variable (hD₁ : D₁.Valid) (hD₂ : D₂.Valid) (hk : D₁.k = D₂.k) (hg : D₁.genesis = D₂.genesis)
  (hl : D₁.mergesetSizeLimit = D₂.mergesetSizeLimit)

include hD₁ hD₂ hk hg hl

/-- **A block's data is a function of the block and its past.** -/
theorem Valid.data_eq_of_past {b : BlockHash} (hpast : PastAgrees D₁ D₂ b) :
    ∀ a, D₁.Anc a b → D₁.data.lookup a = D₂.data.lookup a := by
  induction b using hD₁.layered.wellFounded.induction with
  | _ b ih =>
    have hparents : ∀ p, D₁.Edge p b → ∀ a, D₁.Anc a p →
        D₁.data.lookup a = D₂.data.lookup a :=
      fun p hp => ih p hp (hpast.of_anc hp.anc)
    intro a hab
    by_cases hne : a = b
    · subst hne
      have hheader := hpast a (Anc.refl a)
      cases hl₁ : D₁.headers.lookup a with
      | none =>
        -- unknown to both: neither has data for it
        have hn₁ : a ∉ D₁.data := fun h => Finmap.lookup_eq_none.mp hl₁ (hD₁.data_mem.mp h)
        have hn₂ : a ∉ D₂.data := fun h =>
          Finmap.lookup_eq_none.mp (hheader ▸ hl₁) (hD₂.data_mem.mp h)
        rw [Finmap.lookup_eq_none.mpr hn₁, Finmap.lookup_eq_none.mpr hn₂]
      | some header =>
        have hl₂ : D₂.headers.lookup a = some header := hheader ▸ hl₁
        by_cases hgen : a = D₁.genesis
        · obtain ⟨g₁, hg₁, hd₁⟩ := hD₁.genesis_stored
          obtain ⟨g₂, hg₂, hd₂⟩ := hD₂.genesis_stored
          rw [← hg, ← hgen] at hg₂ hd₂
          rw [← hgen] at hg₁ hd₁
          obtain rfl : g₁ = g₂ := Option.some.inj ((hg₁.symm.trans hheader).trans hg₂)
          rw [hd₁, hd₂]
        · obtain ⟨data₁, hd₁, hc₁⟩ := hD₁.data_eq hl₁ hgen
          obtain ⟨data₂, hd₂, hc₂⟩ := hD₂.data_eq hl₂ (hg ▸ hgen)
          have hfrom : ∀ p ∈ header.parents, ∃ q, D₁.Edge q a ∧ D₁.Anc p q :=
            fun p hp => ⟨p, ⟨header, hl₁, hgen, hp⟩, Anc.refl p⟩
          have hcongr := computeGhostdag_congr
            (agreeOn_of_parents hD₁ hk hg hl hpast hparents) hD₁.layered hD₂.layered hfrom
            (hD₁.parents_ne_nil hl₁ hgen)
          rw [hc₁, hc₂] at hcongr
          rw [hd₁, hd₂, Except.ok.inj hcongr]
    · obtain ⟨p, hp, hap⟩ := hab.exists_parent hne
      exact hparents p hp a hap

end Past

/-! ### What is derived from the data -/

omit [HeaderHash] in
theorem chainWalk_congr (hg : D₁.genesis = D₂.genesis) (hdata : D₁.data = D₂.data) :
    ∀ (n : ℕ) (cursor : BlockHash), D₁.chainWalk n cursor = D₂.chainWalk n cursor := by
  intro n
  induction n with
  | zero => intro _; rfl
  | succ n ih =>
    intro cursor
    unfold chainWalk
    rw [hg, hdata]
    simp only [ih]

/-- With the same blocks and the same data the tips are the same, in the same order. -/
theorem Valid.tips_eq (hD₁ : D₁.Valid) (hD₂ : D₂.Valid) (hg : D₁.genesis = D₂.genesis)
    (hh : D₁.headers = D₂.headers) (hdata : D₁.data = D₂.data) :
    D₁.sortedTips = D₂.sortedTips := by
  -- tips are the stored blocks no edge leaves
  have htips : D₁.tips = D₂.tips := by
    refine Finset.ext fun b => ?_
    rw [hD₁.mem_tips, hD₂.mem_tips]
    unfold Edge
    rw [hh, hg]
  have hcmp : D₁.compareBlocks = D₂.compareBlocks := by
    funext a b
    unfold compareBlocks blueWork
    rw [hdata]
  unfold sortedTips
  rw [htips, hcmp]

omit [HeaderHash] in
/-- The stores hold the same blocks, and the same data, tips and selected parent chains. -/
structure SameView (D₁ D₂ : DagStore) : Prop where
  headers : D₁.headers = D₂.headers
  data : D₁.data = D₂.data
  tips : D₁.sortedTips = D₂.sortedTips
  virtualSelectedParent : D₁.virtualSelectedParent = D₂.virtualSelectedParent
  selectedParentChain : ∀ b, D₁.selectedParentChain b = D₂.selectedParentChain b

/-- Everything derived from the blocks agrees when the blocks do. -/
theorem Valid.eq_of_headers (hD₁ : D₁.Valid) (hD₂ : D₂.Valid) (hk : D₁.k = D₂.k)
    (hg : D₁.genesis = D₂.genesis) (hl : D₁.mergesetSizeLimit = D₂.mergesetSizeLimit)
    (hh : D₁.headers = D₂.headers) :
    D₁.data = D₂.data ∧ D₁.sortedTips = D₂.sortedTips ∧
      D₁.virtualSelectedParent = D₂.virtualSelectedParent ∧
      ∀ b, D₁.selectedParentChain b = D₂.selectedParentChain b := by
  -- equal headers are one past for every block
  have hdata : D₁.data = D₂.data := Finmap.ext_lookup fun b =>
    hD₁.data_eq_of_past hD₂ hk hg hl (fun a _ => congrArg (·.lookup a) hh) b (Anc.refl b)
  have htips := hD₁.tips_eq hD₂ hg hh hdata
  refine ⟨hdata, htips, ?_, ?_⟩
  · unfold virtualSelectedParent
    rw [htips, hg]
  · intro b
    unfold selectedParentChain topologicalHeight
    rw [hdata]
    exact chainWalk_congr hg hdata _ b

/-- **Insertion-order independence.** Two stores built from the same genesis, by any two
sequences of `add_block` calls. A block whose past they agree on has the same data in
both. If they hold the same blocks, all data, the tips, the virtual selected parent and
every selected parent chain agree. -/
theorem addBlocks_order_independent (genesis : Header) (k : UInt16) (limit : ℕ)
    (calls₁ calls₂ : List Header) :
    let D₁ := (new genesis k limit).addBlocks calls₁
    let D₂ := (new genesis k limit).addBlocks calls₂
    (∀ b, PastAgrees D₁ D₂ b → D₁.data.lookup b = D₂.data.lookup b) ∧
      (D₁.headers = D₂.headers →
        D₁.data = D₂.data ∧ D₁.sortedTips = D₂.sortedTips ∧
          D₁.virtualSelectedParent = D₂.virtualSelectedParent ∧
          ∀ b, D₁.selectedParentChain b = D₂.selectedParentChain b) := by
  intro D₁ D₂
  have hD₁ : D₁.Valid := (new_valid genesis k limit).addBlocks calls₁
  have hD₂ : D₂.Valid := (new_valid genesis k limit).addBlocks calls₂
  obtain ⟨hg₁, hk₁, hl₁⟩ := addBlocks_fixed calls₁ (new genesis k limit)
  obtain ⟨hg₂, hk₂, hl₂⟩ := addBlocks_fixed calls₂ (new genesis k limit)
  have hg : D₁.genesis = D₂.genesis := hg₁.trans hg₂.symm
  have hpast : ∀ b, PastAgrees D₁ D₂ b → D₁.data.lookup b = D₂.data.lookup b := fun b hb =>
    hD₁.data_eq_of_past hD₂ (hk₁.trans hk₂.symm) hg (hl₁.trans hl₂.symm) hb b (Anc.refl b)
  exact ⟨hpast, hD₁.eq_of_headers hD₂ (hk₁.trans hk₂.symm) hg (hl₁.trans hl₂.symm)⟩

end Two

section Diamond

open Sample

/-- The diamond with its right side inserted first, after a call refused for a missing
parent. -/
def rightFirst : List Header :=
  block 3 [1, 2] 0x2000ffff :: [block 2 [0] 0x1f00ffff, block 1 [0] 0x2000ffff,
    block 3 [1, 2] 0x2000ffff]

/-- The two diamonds hold the same blocks, so they agree on everything derived. -/
theorem addBlocks_order_independent_diamond :
    let D₁ := (new root 2 10).addBlocks diamond
    let D₂ := (new root 2 10).addBlocks rightFirst
    D₁.data.lookup (hashOf 3) = D₂.data.lookup (hashOf 3) ∧
      D₁.data = D₂.data ∧ D₁.sortedTips = D₂.sortedTips ∧
      D₁.virtualSelectedParent = D₂.virtualSelectedParent ∧
      ∀ b, D₁.selectedParentChain b = D₂.selectedParentChain b := by
  have hh : ((new root 2 10).addBlocks diamond).headers
      = ((new root 2 10).addBlocks rightFirst).headers := by decide +kernel
  obtain ⟨hpast, hall⟩ := addBlocks_order_independent root 2 10 diamond rightFirst
  exact ⟨hpast (hashOf 3) fun a _ => congrArg (·.lookup a) hh, hall hh⟩

end Diamond

end Chainname.DagStore
