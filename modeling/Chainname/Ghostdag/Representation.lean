import Chainname.Ghostdag.Growth

/-!
# What the fields of a store say of each other

The store keeps the tips and the child edges incrementally, and a height with every block.
`Represents` says what they are in terms of the stored headers: the child edges are the parent
edges reversed, the tips are the blocks without a child, the height is the length of the longest
path from genesis, and the selected parent is a parent closer to genesis, so that the selected
chain of every block ends there. It holds in every run (`represents_addBlocks`), and a refused call
changes none of these fields (`refused_changes_nothing`).
-/

namespace Chainname.DagStore

/-! ### Paths -/

/-- A path of `n` edges leads from genesis to the block. -/
inductive PathTo (D : DagStore) : BlockHash → ℕ → Prop
  | genesis : PathTo D D.genesis 0
  | step {p b : BlockHash} {n : ℕ} : PathTo D p n → D.Edge p b → PathTo D b (n + 1)

/-- How often the header of a block names a parent. Genesis has no parents, whatever its header
declares. -/
def parentCount (D : DagStore) (p c : BlockHash) : ℕ :=
  if c = D.genesis then 0 else (D.headers.lookup c).elim 0 fun header => header.parents.count p

theorem parentCount_pos {D : DagStore} {p c : BlockHash} : 0 < D.parentCount p c ↔ D.Edge p c := by
  unfold parentCount Edge
  by_cases hc : c = D.genesis
  · rw [if_pos hc]
    exact iff_of_false (lt_irrefl 0) fun ⟨_, _, hne, _⟩ => hne hc
  · rw [if_neg hc]
    cases hl : D.headers.lookup c with
    | none => exact iff_of_false (lt_irrefl 0) fun ⟨_, h, _⟩ => absurd h (by simp)
    | some header => simp [hc]

variable [HeaderHash] {D : DagStore}

/-- The parent of a computed block that decides its height. -/
theorem Sound.exists_deepest_parent (hD : D.Sound) {b : BlockHash} (hb : b ∈ D.headers)
    (hne : b ≠ D.genesis) :
    ∃ p, D.Edge p b ∧ D.topologicalHeight b = D.topologicalHeight p + 1 := by
  obtain ⟨header, hl⟩ := Maps.mem_iff_exists_lookup.mp hb
  obtain ⟨data, hdata, hcomp⟩ := hD.data_eq hl hne
  obtain ⟨selectedData, mergeset, -, -, rfl⟩ := computeGhostdag_ok hcomp
  have hheight : D.topologicalHeight b = (header.parents.map D.topologicalHeight).foldr max 0 + 1 := by
    unfold topologicalHeight
    rw [hdata]
    rfl
  have hmax : ∀ l : List BlockHash, l ≠ [] →
      ∃ p ∈ l, (l.map D.topologicalHeight).foldr max 0 = D.topologicalHeight p := by
    intro l
    induction l with
    | nil => exact fun h => absurd rfl h
    | cons p l ih =>
      intro _
      rw [List.map_cons, List.foldr_cons]
      by_cases hl : l = []
      · refine ⟨p, List.mem_cons_self, ?_⟩
        rw [hl]
        exact Nat.max_zero _
      obtain ⟨q, hq, heq⟩ := ih hl
      rw [heq]
      obtain hle | hle := le_total (D.topologicalHeight p) (D.topologicalHeight q)
      · exact ⟨q, List.mem_cons_of_mem p hq, max_eq_right hle⟩
      · exact ⟨p, List.mem_cons_self, max_eq_left hle⟩
  obtain ⟨p, hp, heq⟩ := hmax header.parents (hD.parents_ne_nil hl hne)
  exact ⟨p, ⟨header, hl, hne, hp⟩, by rw [hheight, heq]⟩

/-- **The height is the length of the longest path from genesis.** -/
theorem Sound.isGreatest_height (hD : D.Sound) {b : BlockHash} (hb : b ∈ D.headers) :
    IsGreatest {n | D.PathTo b n} (D.topologicalHeight b) := by
  refine ⟨?_, ?_⟩
  · -- from deepest parent to deepest parent down to genesis
    induction b using hD.layered.wellFounded.induction with
    | _ b ih =>
      by_cases hne : b = D.genesis
      · rw [hne, hD.layered.genesis_height]
        exact PathTo.genesis
      obtain ⟨p, hp, hheight⟩ := hD.exists_deepest_parent hb hne
      rw [hheight]
      exact PathTo.step (ih p hp (hD.parent_mem hp)) hp
  · intro n hn
    induction hn with
    | genesis => exact Nat.zero_le _
    | step hpath hedge ih =>
      exact Nat.le_trans (Nat.succ_le_succ (ih (hD.parent_mem hedge))) (hD.layered.height_lt hedge)

/-! ### The invariant -/

/-- What the fields of a store say of each other. -/
structure Represents (D : DagStore) : Prop where
  /-- Headers and data have the same keys. -/
  keys : D.headers.keys = D.data.keys
  /-- Every parent of a stored block is stored. -/
  parents_stored : ∀ b header, D.headers.lookup b = some header → b ≠ D.genesis →
    ∀ p ∈ header.parents, p ∈ D.headers
  /-- The child edges are the parent edges reversed, as often as a header names its parent. -/
  children : ∀ p c, ((D.children.lookup p).getD []).count c = D.parentCount p c
  /-- A block is listed among those with children when it has one. -/
  children_keys : ∀ p, p ∈ D.children ↔ ∃ c, D.Edge p c
  /-- The tips are the stored blocks without a stored child. -/
  tips : ∀ b, b ∈ D.tips ↔ b ∈ D.headers ∧ ∀ c, ¬ D.Edge b c
  tips_nonempty : D.tips.Nonempty
  /-- The selected parent is a declared parent, closer to genesis. -/
  selected : ∀ b header data, D.headers.lookup b = some header → D.data.lookup b = some data →
    b ≠ D.genesis → data.selectedParent ∈ header.parents ∧
      D.topologicalHeight data.selectedParent < D.topologicalHeight b
  /-- The selected chain of a stored block leads to genesis. -/
  chain : ∀ b ∈ D.headers, (D.selectedParentChain b).head? = some b ∧
    (D.selectedParentChain b).getLast? = some D.genesis
  /-- The height is the length of the longest path from genesis. -/
  height : ∀ b ∈ D.headers, IsGreatest {n | D.PathTo b n} (D.topologicalHeight b)

/-- The child edges of a store are its parent edges reversed. -/
structure ChildEdges (D : DagStore) : Prop where
  count : ∀ p c, ((D.children.lookup p).getD []).count c = D.parentCount p c
  keys : ∀ p, p ∈ D.children ↔ ∃ c, D.Edge p c

/-- The rest is the invariant of the store. -/
theorem Valid.represents (hD : D.Valid) (hchildren : D.ChildEdges) : D.Represents where
  keys := by
    refine Finset.ext fun b => ?_
    rw [Finmap.mem_keys, Finmap.mem_keys, hD.data_mem]
  parents_stored b header hl hne p hp := hD.parent_mem ⟨header, hl, hne, hp⟩
  children := hchildren.count
  children_keys := hchildren.keys
  tips _ := hD.mem_tips
  tips_nonempty := hD.tips_nonempty
  selected b header data hl hdata hne := by
    have hedge := hD.selected_edge hdata hne
    refine ⟨?_, hD.layered.height_lt hedge⟩
    obtain ⟨header', hl', -, hp⟩ := hedge
    obtain rfl := Option.some.inj (hl.symm.trans hl')
    exact hp
  chain b hb := by
    refine ⟨hD.head?_chain hb, ?_⟩
    rw [hD.chain_eq_dropLast hb, List.getLast?_append]
    rfl
  height _ hb := hD.isGreatest_height hb

/-- A new block adds the edges from its parents. -/
theorem ChildEdges.install (h : D.ChildEdges) (hD : D.Sound) {header : Header} (hf : D.Fresh header)
    (data : GhostdagData) : (D.install header.hash header data).ChildEdges := by
  have hne := hf.ne_genesis hD
  refine ⟨?_, ?_⟩
  · intro p c
    change ((header.parents.foldl _ D.children).lookup p |>.getD []).count c = _
    rw [Maps.getD_foldl_append, List.count_append, h.count, List.count_replicate]
    unfold parentCount
    rw [lookup_install]
    change _ = if c = D.genesis then 0 else _
    by_cases hc : c = header.hash
    · -- the new block was no child before
      have hnone : D.headers.lookup header.hash = none := Finmap.lookup_eq_none.mpr hf.not_mem
      rw [hc, if_neg hne, if_neg hne, hnone, if_pos rfl, if_pos (beq_self_eq_true _)]
      exact Nat.zero_add _
    · have hno : ¬ (header.hash == c) = true := fun he => hc (eq_of_beq he).symm
      rw [if_neg hc, if_neg hno, Nat.add_zero]
  · intro p
    change p ∈ header.parents.foldl _ D.children ↔ _
    rw [Maps.mem_foldl_append, h.keys]
    simp only [edge_install hf hne, exists_or, exists_eq_left]
    exact or_comm

theorem ChildEdges.addBlock (h : D.ChildEdges) (hD : D.Valid) (header : Header) :
    (D.addBlock header).1.ChildEdges := by
  obtain ⟨cache, hc, ⟨e, he⟩ | ⟨data, hf, -, he⟩⟩ := addBlock_cases hD header
  · rw [he]
    exact ⟨h.count, h.keys⟩
  · rw [he]
    have hcached : ({ D with reachability := cache } : DagStore).ChildEdges := ⟨h.count, h.keys⟩
    exact hcached.install (hD.withCache hc).toSound ⟨hf.not_mem, hf.parents_ne_nil, hf.parent_mem⟩ data

theorem childEdges_addBlocks (headers : List Header) (h : D.ChildEdges) (hD : D.Valid) :
    (D.addBlocks headers).ChildEdges := by
  induction headers generalizing D with
  | nil => exact h
  | cons header headers ih => exact ih (h.addBlock hD header) (hD.addBlock header)

theorem childEdges_new (genesis : Header) (k : UInt16) (limit : ℕ) :
    (new genesis k limit).ChildEdges := by
  have hno : ∀ p c, ¬ (new genesis k limit).Edge p c := by
    rintro p c ⟨header, hl, hne, -⟩
    have hmem : c ∈ (new genesis k limit).headers := Maps.mem_of_lookup hl
    exact hne ((Finmap.mem_singleton c genesis.hash genesis).mp hmem)
  refine ⟨fun p c => ?_, fun p => ?_⟩
  · have hzero : ¬ 0 < (new genesis k limit).parentCount p c := fun h => hno p c (parentCount_pos.mp h)
    rw [Nat.eq_zero_of_not_pos hzero]
    rfl
  · exact iff_of_false (Finmap.notMem_empty) fun ⟨c, h⟩ => hno p c h

/-- A refused call changes at most the memo table. -/
theorem refused_changes_nothing (D : DagStore) (header : Header) {e : DagError}
    (h : (D.addBlock header).2 = .error e) :
    (D.addBlock header).1.headers = D.headers ∧ (D.addBlock header).1.data = D.data ∧
      (D.addBlock header).1.children = D.children ∧ (D.addBlock header).1.tips = D.tips := by
  revert h
  unfold DagStore.addBlock
  dsimp only
  split
  · exact fun _ => ⟨rfl, rfl, rfl, rfl⟩
  · split
    · exact fun _ => ⟨rfl, rfl, rfl, rfl⟩
    · split
      · exact fun _ => ⟨rfl, rfl, rfl, rfl⟩
      · split
        · exact fun _ => ⟨rfl, rfl, rfl, rfl⟩
        · exact fun h => absurd h (by simp)

/-- **In every run** the fields of the store say of each other what they should, and a refused
call leaves them as they are. -/
theorem represents_addBlocks (genesis : Header) (k : UInt16) (limit : ℕ) (headers : List Header) :
    ((new genesis k limit).addBlocks headers).Represents ∧
      ∀ header e, (((new genesis k limit).addBlocks headers).addBlock header).2 = .error e →
        (((new genesis k limit).addBlocks headers).addBlock header).1.headers
            = ((new genesis k limit).addBlocks headers).headers ∧
          (((new genesis k limit).addBlocks headers).addBlock header).1.data
            = ((new genesis k limit).addBlocks headers).data ∧
          (((new genesis k limit).addBlocks headers).addBlock header).1.children
            = ((new genesis k limit).addBlocks headers).children ∧
          (((new genesis k limit).addBlocks headers).addBlock header).1.tips
            = ((new genesis k limit).addBlocks headers).tips := by
  have hvalid := (new_valid genesis k limit).addBlocks headers
  have hchildren := childEdges_addBlocks headers (childEdges_new genesis k limit)
    (new_valid genesis k limit)
  exact ⟨hvalid.represents hchildren, fun header _ h => refused_changes_nothing _ header h⟩

end Chainname.DagStore
