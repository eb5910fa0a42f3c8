import Mathlib.Data.List.MinMax
import Chainname.Ghostdag.Locality

/-!
# What holds of every store that `add_block` builds

`Sound` is the invariant of what the store holds. Besides bookkeeping (which keys are bound,
which blocks are tips) it has one field that says everything about the GHOSTDAG data: a
stored block's data is what `compute_ghostdag` computes for its header now, over the truth
(`data_eq`). Locality is why that stays so when further blocks join. `Valid` adds that the
memo table is truthful, which it is as long as nobody asks about blocks that are not stored.

`Sound.addBlock_of_fresh` is the one place where `add_block` is unfolded: a refusal changes
the memo table only, an acceptance installs the block with its computed data.
`Valid.addBlocks` is the induction over a whole run.
-/

namespace Chainname.DagStore

open Memo

/-- The invariant of what the store holds. -/
structure Sound [HeaderHash] (D : DagStore) : Prop where
  /-- Genesis is stored under its own hash, with the data `new` gave it. -/
  genesis_stored : ∃ genesis, D.headers.lookup D.genesis = some genesis ∧
    D.data.lookup D.genesis = some (genesisData genesis D.genesis)
  /-- Headers are stored under their hashes. -/
  hash_key : ∀ {b header}, D.headers.lookup b = some header → header.hash = b
  /-- Data is stored for exactly the stored blocks. -/
  data_mem : ∀ {b}, b ∈ D.data ↔ b ∈ D.headers
  /-- Every block but genesis declares parents. -/
  parents_ne_nil : ∀ {b header}, D.headers.lookup b = some header → b ≠ D.genesis →
    header.parents ≠ []
  /-- Declared parents are stored. -/
  parent_mem : ∀ {p c}, D.Edge p c → p ∈ D.headers
  /-- A block's data is what is computed for its header. -/
  data_eq : ∀ {b header}, D.headers.lookup b = some header → b ≠ D.genesis →
    ∃ data, D.data.lookup b = some data ∧
      D.computeGhostdag (m := Id) D.truth header = .ok data
  /-- The tips are the stored blocks without children. -/
  mem_tips : ∀ {b}, b ∈ D.tips ↔ b ∈ D.headers ∧ ∀ c, ¬ D.Edge b c

/-- The invariant of the store. -/
structure Valid [HeaderHash] (D : DagStore) : Prop extends D.Sound where
  /-- The memo table is truthful. -/
  cache_ok : D.CacheOk D.reachability

section Facts

variable [HeaderHash] {D : DagStore}

omit [HeaderHash] in
/-- The height of a computed block is above those of its parents. -/
theorem assemble_height_lt {header : Header} {selectedParent : BlockHash}
    {selectedData : GhostdagData} {mergeset : List BlockHash} {st : Colouring} {p : BlockHash}
    (hp : p ∈ header.parents) :
    D.topologicalHeight p
      < (D.assemble header selectedParent selectedData mergeset st).topologicalHeight := by
  refine Nat.lt_succ_of_le (List.le_max_of_le (List.mem_map_of_mem hp) le_rfl)

theorem Sound.genesis_mem (hD : D.Sound) : D.genesis ∈ D.headers := by
  obtain ⟨genesis, hg, -⟩ := hD.genesis_stored
  exact Maps.mem_of_lookup hg

theorem Sound.layered (hD : D.Sound) : D.Layered where
  genesis_mem := hD.genesis_mem
  genesis_height := by
    obtain ⟨genesis, -, hg⟩ := hD.genesis_stored
    unfold topologicalHeight
    rw [hg]
    rfl
  has_parent := by
    intro b hb hne
    obtain ⟨header, hl⟩ := Maps.mem_iff_exists_lookup.mp hb
    obtain ⟨p, hp⟩ := List.exists_mem_of_ne_nil _ (hD.parents_ne_nil hl hne)
    exact ⟨p, header, hl, hne, hp⟩
  parent_mem := hD.parent_mem
  -- the height that is recorded was computed, and is above that of every parent
  height_lt := by
    rintro p c ⟨header, hl, hne, hp⟩
    obtain ⟨data, hdata, hcomp⟩ := hD.data_eq hl hne
    obtain ⟨selectedData, mergeset, -, -, rfl⟩ := computeGhostdag_ok hcomp
    have hc : D.topologicalHeight c = _ := congrArg (Option.elim · 0 _) hdata
    rw [hc]
    exact assemble_height_lt hp
  mem_of_height := by
    intro b hb
    unfold topologicalHeight at hb
    cases hl : D.data.lookup b with
    | none =>
      rw [hl] at hb
      exact absurd hb (lt_irrefl 0)
    | some data => exact hD.data_mem.mp (Maps.mem_of_lookup hl)

/-- What the data of a stored block says: the selected parent is a parent, the ordered
merge set is the merge set, and the colours split it. -/
structure Describes (D : DagStore) (parents : List BlockHash) (data : GhostdagData) : Prop where
  selected : data.selectedParent = D.selectParent parents
  selected_mem : data.selectedParent ∈ parents
  mergeset : D.IsMergeset parents data.selectedParent data.mergesetOrdered
  blues : ∃ blues, data.mergesetBlues = data.selectedParent :: blues ∧
    blues.Sublist data.mergesetOrdered ∧ data.mergesetReds.Sublist data.mergesetOrdered ∧
      (blues ++ data.mergesetReds).Perm data.mergesetOrdered

theorem describes_of_compute (hD : D.Layered) {header : Header} {data : GhostdagData}
    (hp : ∀ p ∈ header.parents, p ∈ D.headers) (hne : header.parents ≠ [])
    (h : D.computeGhostdag (m := Id) D.truth header = .ok data) :
    D.Describes header.parents data := by
  obtain ⟨selectedData, mergeset, -, hm, rfl⟩ := computeGhostdag_ok h
  have hs := selectParent_mem D hne
  obtain ⟨blues, reds, hb, hr, hperm, hbe, hre⟩ := colourMergeset_split D D.truth
    (D.selectParent header.parents) mergeset (.start (D.selectParent header.parents))
  have hreds : (D.assemble header (D.selectParent header.parents) selectedData mergeset
      (D.colourMergeset (m := Id) D.truth (D.selectParent header.parents) mergeset
        (.start (D.selectParent header.parents)))).mergesetReds = reds := hre
  -- blues and reds split the merge set in its order
  refine ⟨rfl, hs, isMergeset_of_ok hD (hp _ hs) hp hm, blues, hbe, hb, ?_, ?_⟩
  · rw [hreds]; exact hr
  · rw [hreds]; exact hperm

variable (hD : D.Sound)

include hD

theorem Sound.describes {b : BlockHash} {header : Header} {data : GhostdagData}
    (hl : D.headers.lookup b = some header) (hne : b ≠ D.genesis)
    (hdata : D.data.lookup b = some data) : D.Describes header.parents data := by
  obtain ⟨data', hdata', hcomp⟩ := hD.data_eq hl hne
  obtain rfl : data' = data := Option.some.inj (hdata'.symm.trans hdata)
  refine describes_of_compute hD.layered (fun p hp => ?_) (hD.parents_ne_nil hl hne) hcomp
  exact hD.parent_mem ⟨header, hl, hne, hp⟩

/-- The selected parent of a stored block is stored; genesis is its own. -/
theorem Sound.selected_mem {b : BlockHash} {data : GhostdagData}
    (hdata : D.data.lookup b = some data) : data.selectedParent ∈ D.headers := by
  obtain ⟨header, hl⟩ := Maps.mem_iff_exists_lookup.mp (hD.data_mem.mp (Maps.mem_of_lookup hdata))
  by_cases hne : b = D.genesis
  · obtain ⟨genesis, -, hg⟩ := hD.genesis_stored
    rw [hne, hg] at hdata
    rw [← Option.some.inj hdata]
    exact hD.genesis_mem
  · exact hD.parent_mem ⟨header, hl, hne, (hD.describes hl hne hdata).selected_mem⟩

/-- The selected parent of a stored block other than genesis is one of its parents. -/
theorem Sound.selected_edge {b : BlockHash} {data : GhostdagData}
    (hdata : D.data.lookup b = some data) (hne : b ≠ D.genesis) :
    D.Edge data.selectedParent b := by
  obtain ⟨header, hl⟩ := Maps.mem_iff_exists_lookup.mp (hD.data_mem.mp (Maps.mem_of_lookup hdata))
  exact ⟨header, hl, hne, (hD.describes hl hne hdata).selected_mem⟩

/-- The blues of a stored block are stored, and lie strictly behind it. -/
theorem Sound.blue_anc {b : BlockHash} {data : GhostdagData}
    (hdata : D.data.lookup b = some data) {x : BlockHash} (hx : x ∈ data.mergesetBlues) :
    D.Anc x b ∧ x ≠ b := by
  obtain ⟨header, hl⟩ := Maps.mem_iff_exists_lookup.mp (hD.data_mem.mp (Maps.mem_of_lookup hdata))
  by_cases hne : b = D.genesis
  · -- genesis has no blues
    obtain ⟨genesis, -, hg⟩ := hD.genesis_stored
    rw [hne, hg] at hdata
    rw [← Option.some.inj hdata] at hx
    exact absurd hx List.not_mem_nil
  have hdesc := hD.describes hl hne hdata
  -- it is enough to find a parent whose past it lies in
  suffices ∃ p, D.Edge p b ∧ D.Anc x p by
    obtain ⟨p, hpb, hxp⟩ := this
    refine ⟨hxp.trans hpb.anc, ?_⟩
    rintro rfl
    exact absurd (hxp.height_le hD.layered) (not_le.mpr (hD.layered.height_lt hpb))
  obtain ⟨blues, hbe, hsub, -, -⟩ := hdesc.blues
  rw [hbe] at hx
  rcases List.mem_cons.mp hx with rfl | hx
  · -- the selected parent is the first of the blues
    exact ⟨_, ⟨header, hl, hne, hdesc.selected_mem⟩, Anc.refl _⟩
  · obtain ⟨⟨p, hp, hxp⟩, -⟩ := hdesc.mergeset.mem_iff.mp (hsub.subset hx)
    exact ⟨p, ⟨header, hl, hne, hp⟩, hxp⟩

theorem Sound.blue_mem {b : BlockHash} {data : GhostdagData} (hdata : D.data.lookup b = some data)
    {x : BlockHash} (hx : x ∈ data.mergesetBlues) : x ∈ D.headers :=
  (hD.blue_anc hdata hx).1.mem hD.layered.toRooted (hD.data_mem.mp (Maps.mem_of_lookup hdata))

end Facts

/-! ### The memoised query is not observable -/

section Computes

variable [HeaderHash] {D : DagStore} (hD : D.Sound) {C : ReachCache → Prop} (hC : D.Answers C)

include hD hC

omit [HeaderHash] hD in
theorem scanBlues_computes {candidate : BlockHash} (hc : candidate ∈ D.headers)
    (k : UInt16) (sizes : Map BlockHash UInt16) :
    ∀ (blues : List BlockHash) (anticone : UInt16) (updates : List (BlockHash × UInt16)),
      (∀ b ∈ blues, b ∈ D.headers) →
      Computes C (scanBlues D.isAncestorOf k sizes candidate blues anticone updates)
        (scanBlues (m := Id) D.truth k sizes candidate blues anticone updates) := by
  intro blues
  induction blues with
  | nil => intro _ _ _; exact Computes.pure _
  | cons blue blues ih =>
    intro anticone updates hb
    have hb' : ∀ b ∈ blues, b ∈ D.headers := fun b h => hb b (List.mem_cons_of_mem blue h)
    unfold scanBlues
    rw [id_bind]
    -- one query is answered, and the loop goes on with its answer
    refine Computes.bind (hC _ _ (hb blue List.mem_cons_self) hc) ?_
    by_cases hpast : D.truth blue candidate = true
    · rw [if_pos hpast, if_pos hpast]
      exact ih _ _ hb'
    · rw [if_neg hpast, if_neg hpast]
      dsimp only
      split
      · exact Computes.pure _
      · split
        · exact Computes.pure _
        · exact ih _ _ hb'

theorem Sound.walkChain_computes {candidate : BlockHash} (hc : candidate ∈ D.headers) :
    ∀ (n : ℕ) (chainBlock : BlockHash) (anticone : UInt16)
      (updates : List (BlockHash × UInt16)), chainBlock ∈ D.headers →
      Computes C (D.walkChain D.isAncestorOf candidate n chainBlock anticone updates)
        (D.walkChain (m := Id) D.truth candidate n chainBlock anticone updates) := by
  intro n
  induction n with
  | zero => intro _ _ _ _; exact Computes.pure _
  | succ n ih =>
    intro chainBlock anticone updates hb
    unfold walkChain
    rw [id_bind]
    -- the chain block is asked for, then its blues are scanned
    refine Computes.bind (hC _ _ hb hc) ?_
    by_cases hpast : D.truth chainBlock candidate = true
    · rw [if_pos hpast, if_pos hpast]
      exact Computes.pure _
    rw [if_neg hpast, if_neg hpast]
    cases hl : D.data.lookup chainBlock with
    | none => exact Computes.pure _
    | some chainData =>
      dsimp only
      rw [id_bind]
      refine Computes.bind (scanBlues_computes hC hc _ _ _ _ _ fun x hx => hD.blue_mem hl hx) ?_
      cases scanBlues (m := Id) D.truth D.k chainData.bluesAnticoneSizes candidate
        chainData.mergesetBlues anticone updates with
      | none => exact Computes.pure _
      | some scanned =>
        dsimp only
        split
        · exact Computes.pure _
        · exact ih _ _ _ (hD.selected_mem hl)

theorem Sound.colourCandidate_computes {candidate selectedParent : BlockHash}
    (hc : candidate ∈ D.headers) (hs : selectedParent ∈ D.headers) (blues : List BlockHash)
    (hb : ∀ b ∈ blues, b ∈ D.headers) (sizes : Map BlockHash UInt16) :
    Computes C (D.colourCandidate D.isAncestorOf candidate selectedParent blues sizes)
      (D.colourCandidate (m := Id) D.truth candidate selectedParent blues sizes) := by
  unfold colourCandidate
  split
  · exact Computes.pure _
  rw [id_bind]
  refine Computes.bind (scanBlues_computes hC hc _ _ _ _ _ hb) ?_
  cases scanBlues (m := Id) D.truth D.k sizes candidate blues 0 [] with
  -- a candidate that the block's own blues refuse is red without a walk
  | none => exact Computes.pure _
  | some scanned =>
    dsimp only
    rw [id_bind]
    refine Computes.bind (hD.walkChain_computes hC hc _ _ _ _ hs) ?_
    split
    · exact Computes.pure _
    · exact Computes.pure _

theorem Sound.colourMergeset_computes {selectedParent : BlockHash}
    (hs : selectedParent ∈ D.headers) : ∀ (mergeset : List BlockHash) (st : Colouring),
      (∀ c ∈ mergeset, c ∈ D.headers) → (∀ b ∈ st.blues, b ∈ D.headers) →
      Computes C (D.colourMergeset D.isAncestorOf selectedParent mergeset st)
        (D.colourMergeset (m := Id) D.truth selectedParent mergeset st) := by
  intro mergeset
  induction mergeset with
  | nil => intro _ _ _; exact Computes.pure _
  | cons candidate mergeset ih =>
    intro st hm hb
    have hc := hm candidate List.mem_cons_self
    have hm' : ∀ c ∈ mergeset, c ∈ D.headers := fun c h => hm c (List.mem_cons_of_mem candidate h)
    unfold colourMergeset
    rw [id_bind]
    refine Computes.bind (hD.colourCandidate_computes hC hc hs _ hb _) ?_
    -- the answer decides how the colouring goes on
    obtain ⟨colour, anticone, updates⟩ :=
      D.colourCandidate (m := Id) D.truth candidate selectedParent st.blues st.sizes
    cases colour with
    | blue =>
      refine ih _ hm' fun b h => ?_
      rcases List.mem_append.mp h with h | h
      · exact hb b h
      · exact List.mem_singleton.mp h ▸ hc
    | red => exact ih _ hm' hb

/-- **The memoised query is not observable**: the data of a block whose parents are stored
is what it is over the truth. -/
theorem Sound.computeGhostdag_computes {header : Header}
    (hp : ∀ p ∈ header.parents, p ∈ D.headers) (hne : header.parents ≠ []) :
    Computes C (D.computeGhostdag D.isAncestorOf header)
      (D.computeGhostdag (m := Id) D.truth header) := by
  have hs := hp _ (selectParent_mem D hne)
  unfold computeGhostdag
  dsimp only
  cases D.data.lookup (D.selectParent header.parents) with
  | none => exact Computes.pure _
  | some selectedData =>
    dsimp only
    rw [id_bind]
    refine Computes.bind (orderedMergeset_computes hD.layered hs hp hC) ?_
    cases hm : D.orderedMergeset (m := Id) D.truth header (D.selectParent header.parents) with
    | error e => exact Computes.pure _
    | ok mergeset =>
      dsimp only
      rw [id_bind]
      refine Computes.bind (hD.colourMergeset_computes hC hs _ _ ?_ ?_) (Computes.pure _)
      · intro c hc
        obtain ⟨⟨p, hpm, hcp⟩, -⟩ := (isMergeset_of_ok hD.layered hs hp hm).mem_iff.mp hc
        exact hcp.mem hD.layered.toRooted (hp p hpm)
      · intro b hb
        exact List.mem_singleton.mp hb ▸ hs

end Computes

/-! ### Adding a block -/

section Step

variable [HeaderHash]

/-- A header that can join: it is new, and has parents, all of them stored. -/
structure Fresh (D : DagStore) (header : Header) : Prop where
  not_mem : header.hash ∉ D.headers
  parents_ne_nil : header.parents ≠ []
  parent_mem : ∀ p ∈ header.parents, p ∈ D.headers

section Cases

variable {D : DagStore} (hD : D.Sound) {C : ReachCache → Prop} (hC : D.Answers C)
  (hcache : C D.reachability)

include hD hC hcache

/-- A header that can join is installed with the data computed for it, or refused for the
reason for which there is none. -/
theorem Sound.addBlock_of_fresh {header : Header} (hf : D.Fresh header) : ∃ cache, C cache ∧
      D.addBlock header =
        match D.computeGhostdag (m := Id) D.truth header with
        | .error e => ({ D with reachability := cache }, .error e)
        | .ok data =>
          (({ D with reachability := cache } : DagStore).install header.hash header data,
            .ok header.hash) := by
  -- nothing is missing, so that the store computes
  have hfind : header.parents.find? (fun p => p ∉ D.headers) = none :=
    List.find?_eq_none.mpr fun p hp => by simpa using hf.parent_mem p hp
  have hcomp := hD.computeGhostdag_computes hC hf.parent_mem hf.parents_ne_nil
  refine ⟨_, hcomp.snd hcache, ?_⟩
  have hval := hcomp.fst hcache
  unfold addBlock
  dsimp only
  rw [if_neg hf.not_mem, if_neg hf.parents_ne_nil, hfind]
  dsimp only
  rw [hval]
  cases D.computeGhostdag (m := Id) D.truth header with
  | error e => rfl
  | ok data => rfl

/-- **What a call of `add_block` does.** It is refused and changes at most the memo table,
or it installs the block with the data computed for it. -/
theorem Sound.addBlock_cases (header : Header) :
    ∃ cache, C cache ∧
      ((∃ e, D.addBlock header = ({ D with reachability := cache }, .error e)) ∨
        ∃ data, D.Fresh header ∧ D.computeGhostdag (m := Id) D.truth header = .ok data ∧
          D.addBlock header =
            (({ D with reachability := cache } : DagStore).install header.hash header data,
              .ok header.hash)) := by
  by_cases hmem : header.hash ∈ D.headers
  · -- each check of the source in turn: the block is there, it names no parent, or one is missing
    refine ⟨D.reachability, hcache, Or.inl ⟨.alreadyPresent header.hash, ?_⟩⟩
    unfold addBlock
    dsimp only
    rw [if_pos hmem]
  by_cases hnil : header.parents = []
  · refine ⟨D.reachability, hcache, Or.inl ⟨.noParents header.hash, ?_⟩⟩
    unfold addBlock
    dsimp only
    rw [if_neg hmem, if_pos hnil]
  cases hfind : header.parents.find? (fun p => p ∉ D.headers) with
  | some parent =>
    refine ⟨D.reachability, hcache, Or.inl ⟨.missingParent header.hash parent, ?_⟩⟩
    unfold addBlock
    dsimp only
    rw [if_neg hmem, if_neg hnil, hfind]
  | none =>
    have hp : ∀ p ∈ header.parents, p ∈ D.headers := fun p hpm => by
      simpa using List.find?_eq_none.mp hfind p hpm
    have hf : D.Fresh header := ⟨hmem, hnil, hp⟩
    obtain ⟨cache, hc, hadd⟩ := hD.addBlock_of_fresh hC hcache hf
    refine ⟨cache, hc, ?_⟩
    cases hdata : D.computeGhostdag (m := Id) D.truth header with
    | error e => exact Or.inl ⟨e, by rw [hadd, hdata]⟩
    | ok data => exact Or.inr ⟨data, hf, rfl, by rw [hadd, hdata]⟩

end Cases

/-- The cases of a call on a store with a truthful memo table. -/
theorem addBlock_cases {D : DagStore} (hD : D.Valid) (header : Header) :
    ∃ cache, D.CacheOk cache ∧
      ((∃ e, D.addBlock header = ({ D with reachability := cache }, .error e)) ∨
        ∃ data, D.Fresh header ∧ D.computeGhostdag (m := Id) D.truth header = .ok data ∧
          D.addBlock header =
            (({ D with reachability := cache } : DagStore).install header.hash header data,
              .ok header.hash)) :=
  hD.addBlock_cases hD.layered.answers hD.cache_ok header

end Step

section Preserve

variable [HeaderHash] {D : DagStore}

omit [HeaderHash] in
theorem mem_foldl_erase {x : BlockHash} : ∀ (l : List BlockHash) (s : Finset BlockHash),
    x ∈ l.foldl Finset.erase s ↔ x ∈ s ∧ x ∉ l := by
  intro l
  induction l with
  | nil => intro s; simp
  | cons y l ih =>
    intro s
    rw [List.foldl_cons, ih, Finset.mem_erase, List.mem_cons, not_or]
    tauto

/-- A store agrees with itself under another memo table. -/
theorem Sound.agree_withCache (hD : D.Sound) (cache : ReachCache) :
    AgreeOn (· ∈ D.headers) D { D with reachability := cache } where
  k_eq := rfl
  genesis_eq := rfl
  limit_eq := rfl
  header_eq _ := rfl
  data_eq _ := rfl
  mem h := h
  closed _ h := hD.parent_mem h
  selected _ h := hD.selected_mem h

theorem Sound.layered_withCache (hD : D.Sound) (cache : ReachCache) :
    ({ D with reachability := cache } : DagStore).Layered :=
  ⟨⟨hD.layered.genesis_mem, hD.layered.genesis_height, hD.layered.has_parent, hD.parent_mem⟩,
    hD.layered.height_lt, hD.layered.mem_of_height⟩

theorem Sound.computeGhostdag_withCache (hD : D.Sound) (cache : ReachCache) {header : Header}
    (hp : ∀ p ∈ header.parents, p ∈ D.headers) (hne : header.parents ≠ []) :
    D.computeGhostdag (m := Id) D.truth header =
      ({ D with reachability := cache } : DagStore).computeGhostdag (m := Id)
        ({ D with reachability := cache } : DagStore).truth header :=
  computeGhostdag_congr (hD.agree_withCache cache) hD.layered (hD.layered_withCache cache) hp hne

theorem Sound.withCache (hD : D.Sound) (cache : ReachCache) :
    ({ D with reachability := cache } : DagStore).Sound where
  genesis_stored := hD.genesis_stored
  hash_key := hD.hash_key
  data_mem := hD.data_mem
  parents_ne_nil := hD.parents_ne_nil
  parent_mem := hD.parent_mem
  data_eq := by
    intro b header hl hne
    obtain ⟨data, hdata, hcomp⟩ := hD.data_eq hl hne
    -- what was computed does not depend on the cache
    refine ⟨data, hdata, ?_⟩
    rw [← hD.computeGhostdag_withCache cache _ (hD.parents_ne_nil hl hne)]
    · exact hcomp
    · exact fun p hp => hD.parent_mem ⟨header, hl, hne, hp⟩
  mem_tips := hD.mem_tips

theorem Valid.withCache (hD : D.Valid) {cache : ReachCache} (hc : D.CacheOk cache) :
    ({ D with reachability := cache } : DagStore).Valid :=
  ⟨hD.toSound.withCache cache, hc⟩

section Install

variable {header : Header} {data : GhostdagData} (hD : D.Sound) (hf : D.Fresh header)

include hD hf

theorem Fresh.ne_genesis : header.hash ≠ D.genesis :=
  fun he => hf.not_mem (he ▸ hD.genesis_mem)

omit hD hf in
theorem lookup_install (b : BlockHash) :
    (D.install header.hash header data).headers.lookup b
      = if b = header.hash then some header else D.headers.lookup b :=
  Maps.lookup_insert _ _ _ _

omit hD in
/-- Joining adds the edges from the new block's parents, and no other. -/
theorem edge_install {p c : BlockHash} (hne : header.hash ≠ D.genesis) :
    (D.install header.hash header data).Edge p c ↔
      D.Edge p c ∨ c = header.hash ∧ p ∈ header.parents := by
  unfold Edge
  rw [lookup_install]
  change (∃ h, _ ∧ c ≠ D.genesis ∧ _) ↔ _
  by_cases hc : c = header.hash
  · have hn : D.headers.lookup header.hash = none := Finmap.lookup_eq_none.mpr hf.not_mem
    rw [if_pos hc, hc, hn]
    simp [hne]
  · simp [hc]

theorem agree_install :
    AgreeOn (· ∈ D.headers) D (D.install header.hash header data) where
  k_eq := rfl
  genesis_eq := rfl
  limit_eq := rfl
  header_eq := by
    intro b hb
    -- an old block is not the new one
    have hne : b ≠ header.hash := fun he => hf.not_mem (he ▸ hb)
    rw [lookup_install, if_neg hne]
  data_eq := by
    intro b hb
    have hne : b ≠ header.hash := fun he => hf.not_mem (he ▸ hb)
    change _ = (Finmap.insert header.hash data D.data).lookup b
    rw [Maps.lookup_insert, if_neg hne]
  mem h := h
  closed _ h := hD.parent_mem h
  selected _ h := hD.selected_mem h

omit hD hf in
theorem mem_install {b : BlockHash} :
    b ∈ (D.install header.hash header data).headers ↔ b = header.hash ∨ b ∈ D.headers :=
  Finmap.mem_insert

omit hD hf in
theorem data_install_self :
    (D.install header.hash header data).data.lookup header.hash = some data :=
  Finmap.lookup_insert _

theorem layered_install (hcomp : D.computeGhostdag (m := Id) D.truth header = .ok data) :
    (D.install header.hash header data).Layered := by
  have hg := hf.ne_genesis hD
  have hagree : AgreeOn (· ∈ D.headers) D (D.install header.hash header data) :=
    agree_install hD hf
  have hheight : ∀ {b}, b ∈ D.headers → D.topologicalHeight b
      = (D.install header.hash header data).topologicalHeight b := hagree.topologicalHeight_eq
  refine ⟨⟨?_, ?_, ?_, ?_⟩, ?_, ?_⟩
  · exact (mem_install).mpr (Or.inr hD.genesis_mem)
  · exact (hheight hD.genesis_mem).symm.trans hD.layered.genesis_height
  · -- a new block has its parents, an old one keeps one
    intro b hb hne
    rcases (mem_install).mp hb with rfl | hb
    · obtain ⟨p, hp⟩ := List.exists_mem_of_ne_nil _ hf.parents_ne_nil
      exact ⟨p, (edge_install hf hg).mpr (Or.inr ⟨rfl, hp⟩)⟩
    · obtain ⟨p, hp⟩ := hD.layered.has_parent hb hne
      exact ⟨p, (edge_install hf hg).mpr (Or.inl hp)⟩
  · intro p c hpc
    -- an edge leads to a block that was there before
    refine (mem_install).mpr (Or.inr ?_)
    rcases (edge_install hf hg).mp hpc with h | ⟨-, h⟩
    · exact hD.parent_mem h
    · exact hf.parent_mem p h
  · intro p c hpc
    rcases (edge_install hf hg).mp hpc with h | ⟨rfl, h⟩
    · rw [← hheight (hD.parent_mem h), ← hheight h.mem]
      exact hD.layered.height_lt h
    · -- the new block is put above all its parents
      obtain ⟨selectedData, mergeset, -, -, hdata⟩ := computeGhostdag_ok hcomp
      have hself : (D.install header.hash header data).topologicalHeight header.hash
          = data.topologicalHeight :=
        congrArg (Option.elim · 0 _) (data_install_self)
      rw [← hheight (hf.parent_mem p h), hself, hdata]
      exact assemble_height_lt h
  · intro b hb
    rw [mem_install]
    by_cases he : b = header.hash
    · exact Or.inl he
    · refine Or.inr (hD.layered.mem_of_height ?_)
      have hsame : (D.install header.hash header data).topologicalHeight b
          = D.topologicalHeight b := by
        unfold topologicalHeight
        change ((Finmap.insert header.hash data D.data).lookup b).elim _ _ = _
        rw [Maps.lookup_insert, if_neg he]
      rwa [hsame] at hb

/-- **Joining keeps the invariant.** -/
theorem Sound.install (hcomp : D.computeGhostdag (m := Id) D.truth header = .ok data) :
    (D.install header.hash header data).Sound := by
  have hg := hf.ne_genesis hD
  have hagree : AgreeOn (· ∈ D.headers) D (D.install header.hash header data) :=
    agree_install hD hf
  have hlayered := layered_install hD hf hcomp
  have hcongr : ∀ h : Header, (∀ p ∈ h.parents, p ∈ D.headers) → h.parents ≠ [] →
      D.computeGhostdag (m := Id) D.truth h
        = (D.install header.hash header data).computeGhostdag (m := Id)
          (D.install header.hash header data).truth h :=
    fun h hp hne => computeGhostdag_congr hagree hD.layered hlayered hp hne
  refine ⟨?_, ?_, ?_, ?_, fun h => hlayered.parent_mem h, ?_, ?_⟩
  · obtain ⟨genesis, hl, hdata⟩ := hD.genesis_stored
    exact ⟨genesis, (hagree.header_eq hD.genesis_mem).symm.trans hl,
      (hagree.data_eq hD.genesis_mem).symm.trans hdata⟩
  · intro b h hl
    rw [lookup_install] at hl
    split at hl
    · next he => rw [he, Option.some.inj hl]
    · exact hD.hash_key hl
  · intro b
    rw [mem_install, ← hD.data_mem]
    exact Finmap.mem_insert
  · intro b h hl hne
    rw [lookup_install] at hl
    split at hl
    · exact Option.some.inj hl ▸ hf.parents_ne_nil
    · exact hD.parents_ne_nil hl hne
  · intro b h hl hne
    rw [lookup_install] at hl
    split at hl
    · next he =>
      obtain rfl := Option.some.inj hl
      refine ⟨data, he ▸ data_install_self, ?_⟩
      rw [← hcongr header hf.parent_mem hf.parents_ne_nil]
      exact hcomp
    · obtain ⟨data', hdata, hcomp'⟩ := hD.data_eq hl hne
      refine ⟨data', (hagree.data_eq (Maps.mem_of_lookup hl)).symm.trans hdata, ?_⟩
      rw [← hcongr h (fun p hp => hD.parent_mem ⟨h, hl, hne, hp⟩) (hD.parents_ne_nil hl hne)]
      exact hcomp'
  · intro b
    rw [mem_install]
    change b ∈ insert header.hash (header.parents.foldl Finset.erase D.tips) ↔ _
    -- a tip is a block without a child: the parents are no tips any more, the block is one
    rw [Finset.mem_insert, mem_foldl_erase, hD.mem_tips]
    simp only [edge_install hf hg, not_or, not_and]
    refine ⟨?_, ?_⟩
    · rintro (rfl | ⟨⟨hb, hno⟩, hnp⟩)
      · refine ⟨Or.inl rfl, fun c => ⟨fun h => hf.not_mem (hD.parent_mem h), ?_⟩⟩
        exact fun _ h => hf.not_mem (hf.parent_mem _ h)
      · exact ⟨Or.inr hb, fun c => ⟨hno c, fun _ => hnp⟩⟩
    · rintro ⟨rfl | hb, hno⟩
      · exact Or.inl rfl
      · exact Or.inr ⟨⟨hb, fun c => (hno c).1⟩, (hno header.hash).2 rfl⟩

omit hD in
theorem Valid.install (hD : D.Valid)
    (hcomp : D.computeGhostdag (m := Id) D.truth header = .ok data) :
    (D.install header.hash header data).Valid := by
  refine ⟨hD.toSound.install hf hcomp, ?_⟩
  -- the memo table speaks about old blocks, whose ancestry has not changed
  intro d a answer hl
  obtain ⟨ha, hd, hiff⟩ := hD.cache_ok d a answer hl
  refine ⟨(mem_install).mpr (Or.inr ha), (mem_install).mpr (Or.inr hd), ?_⟩
  rw [hiff]
  exact (agree_install hD.toSound hf).anc_iff hd

end Install

/-- A new store holds genesis alone. -/
theorem lookup_new {genesis : Header} {k : UInt16} {limit : ℕ} {b : BlockHash} {header : Header}
    (hl : (new genesis k limit).headers.lookup b = some header) :
    b = genesis.hash ∧ header = genesis := by
  have hmem : b ∈ (new genesis k limit).headers := Maps.mem_of_lookup hl
  have hb : b = genesis.hash := (Finmap.mem_singleton b genesis.hash genesis).mp hmem
  rw [hb] at hl
  exact ⟨hb, (Option.some.inj (Finmap.lookup_singleton_eq.symm.trans hl)).symm⟩

/-- The invariant holds of a new store. -/
theorem new_valid (genesis : Header) (k : UInt16) (limit : ℕ) : (new genesis k limit).Valid := by
  have hkey : ∀ {b header}, (new genesis k limit).headers.lookup b = some header →
      b = genesis.hash ∧ header = genesis := lookup_new
  -- the only block is genesis, so there is no edge
  have hno : ∀ p c, ¬ (new genesis k limit).Edge p c := by
    rintro p c ⟨header, hl, hne, -⟩
    exact hne (hkey hl).1
  refine ⟨⟨⟨genesis, Finmap.lookup_singleton_eq, Finmap.lookup_singleton_eq⟩, ?_, ?_, ?_, ?_, ?_,
    ?_⟩, CacheOk.empty⟩
  · intro b header hl
    rw [(hkey hl).1, (hkey hl).2]
  · intro b
    change b ∈ Finmap.singleton _ _ ↔ b ∈ Finmap.singleton _ _
    rw [Finmap.mem_singleton, Finmap.mem_singleton]
  · exact fun hl hne => absurd (hkey hl).1 hne
  · exact fun h => absurd h (hno _ _)
  · exact fun hl hne => absurd (hkey hl).1 hne
  · intro b
    change b ∈ ({genesis.hash} : Finset BlockHash) ↔ b ∈ Finmap.singleton _ _ ∧ _
    rw [Finset.mem_singleton, Finmap.mem_singleton, and_iff_left (hno b)]

/-- One call of `add_block` keeps the invariant, accepted or refused. -/
theorem Valid.addBlock (hD : D.Valid) (header : Header) : (D.addBlock header).1.Valid := by
  obtain ⟨cache, hc, ⟨e, he⟩ | ⟨data, hf, hcomp, he⟩⟩ := addBlock_cases hD header
  · rw [he]
    exact hD.withCache hc
  · rw [he]
    rw [hD.computeGhostdag_withCache cache hf.parent_mem hf.parents_ne_nil] at hcomp
    exact (hD.withCache hc).install ⟨hf.not_mem, hf.parents_ne_nil, hf.parent_mem⟩ hcomp

/-- **The invariant holds in every run.** -/
theorem Valid.addBlocks (headers : List Header) (hD : D.Valid) : (D.addBlocks headers).Valid := by
  induction headers generalizing D with
  | nil => exact hD
  | cons header headers ih => exact ih (hD.addBlock header)

/-- What a store is built from never changes. -/
theorem addBlock_fixed (D : DagStore) (header : Header) :
    (D.addBlock header).1.genesis = D.genesis ∧ (D.addBlock header).1.k = D.k ∧
      (D.addBlock header).1.mergesetSizeLimit = D.mergesetSizeLimit := by
  unfold DagStore.addBlock
  dsimp only
  -- in every branch of the source these three are passed on
  split
  · exact ⟨rfl, rfl, rfl⟩
  · split
    · exact ⟨rfl, rfl, rfl⟩
    · split
      · exact ⟨rfl, rfl, rfl⟩
      · split
        · exact ⟨rfl, rfl, rfl⟩
        · exact ⟨rfl, rfl, rfl⟩

/-- What a call stores: nothing when it refuses, the header under its hash when it accepts. -/
theorem headers_addBlock (D : DagStore) (header : Header) :
    (∃ e, (D.addBlock header).2 = .error e ∧ (D.addBlock header).1.headers = D.headers) ∨
      ((D.addBlock header).2 = .ok header.hash ∧ header.hash ∉ D.headers ∧
        (D.addBlock header).1.headers = D.headers.insert header.hash header) := by
  unfold DagStore.addBlock
  dsimp only
  -- a block is stored in the last branch only
  split
  · exact Or.inl ⟨_, rfl, rfl⟩
  · next hnew =>
    split
    · exact Or.inl ⟨_, rfl, rfl⟩
    · split
      · exact Or.inl ⟨_, rfl, rfl⟩
      · split
        · exact Or.inl ⟨_, rfl, rfl⟩
        · exact Or.inr ⟨rfl, hnew, rfl⟩

theorem headers_addBlock_of_ok {D : DagStore} {header : Header} {hash : BlockHash}
    (h : (D.addBlock header).2 = .ok hash) :
    header.hash ∉ D.headers ∧
      (D.addBlock header).1.headers = D.headers.insert header.hash header := by
  obtain ⟨e, he, -⟩ | ⟨-, hnew, hheaders⟩ := D.headers_addBlock header
  · rw [he] at h
    cases h
  · exact ⟨hnew, hheaders⟩

/-- A block that is added is stored beside the others. -/
theorem mem_addBlock_of_ok {D : DagStore} {header : Header} {hash : BlockHash}
    (h : (D.addBlock header).2 = .ok hash) {b : BlockHash} :
    b ∈ (D.addBlock header).1.headers ↔ b = header.hash ∨ b ∈ D.headers := by
  rw [(headers_addBlock_of_ok h).2]
  exact Finmap.mem_insert

/-- An accepted block is returned by its hash. -/
theorem addBlock_ok_hash {D : DagStore} {header : Header} {hash : BlockHash}
    (h : (D.addBlock header).2 = .ok hash) : (D.addBlock header).2 = .ok header.hash := by
  obtain ⟨e, he, -⟩ | ⟨hok, -, -⟩ := D.headers_addBlock header
  · rw [he] at h
    cases h
  · exact hok

theorem headers_addBlock_of_error {D : DagStore} {header : Header} {e : DagError}
    (h : (D.addBlock header).2 = .error e) : (D.addBlock header).1.headers = D.headers := by
  obtain ⟨-, -, hheaders⟩ | ⟨hok, -, -⟩ := D.headers_addBlock header
  · exact hheaders
  · rw [hok] at h
    cases h

/-- A call stores nothing but the header it is given, under its hash. -/
theorem stored_addBlock {D : DagStore} {header : Header} {b : BlockHash} {stored : Header}
    (h : (D.addBlock header).1.headers.lookup b = some stored) :
    b = header.hash ∧ stored = header ∨ D.headers.lookup b = some stored := by
  obtain ⟨-, -, hheaders⟩ | ⟨-, -, hheaders⟩ := D.headers_addBlock header
  · exact .inr (hheaders ▸ h)
  · rw [hheaders] at h
    exact (Maps.lookup_insert_eq_some.mp h).imp_right And.right

/-- What is stored stays stored. -/
theorem lookup_addBlock {D : DagStore} {b : BlockHash} {stored : Header}
    (h : D.headers.lookup b = some stored) (header : Header) :
    (D.addBlock header).1.headers.lookup b = some stored := by
  obtain ⟨-, -, hheaders⟩ | ⟨-, hnew, hheaders⟩ := D.headers_addBlock header
  · rw [hheaders]
    exact h
  · rw [hheaders, Maps.lookup_insert, if_neg]
    · exact h
    · rintro rfl
      exact hnew (Maps.mem_of_lookup h)

theorem lookup_addBlocks {D : DagStore} {b : BlockHash} {stored : Header}
    (h : D.headers.lookup b = some stored) (headers : List Header) :
    (D.addBlocks headers).headers.lookup b = some stored := by
  induction headers generalizing D with
  | nil => exact h
  | cons header headers ih => exact ih (lookup_addBlock h header)

/-- A run stores nothing but the headers it is given. -/
theorem stored_addBlocks {D : DagStore} {headers : List Header} {b : BlockHash} {stored : Header}
    (h : (D.addBlocks headers).headers.lookup b = some stored) :
    D.headers.lookup b = some stored ∨ stored ∈ headers := by
  induction headers generalizing D with
  | nil => exact .inl h
  | cons header headers ih =>
    obtain h | h := ih h
    · obtain ⟨-, rfl⟩ | h := stored_addBlock h
      · exact .inr List.mem_cons_self
      · exact .inl h
    · exact .inr (List.mem_cons_of_mem _ h)

/-- A block stored by a run from genesis is genesis or one of the headers. -/
theorem exists_header_of_mem {genesis : Header} {k : UInt16} {limit : ℕ} {headers : List Header}
    {b : BlockHash} {stored : Header}
    (h : ((new genesis k limit).addBlocks headers).headers.lookup b = some stored) :
    stored ∈ genesis :: headers ∧ stored.hash = b := by
  refine ⟨?_, ((new_valid genesis k limit).addBlocks headers).hash_key h⟩
  obtain h | h := stored_addBlocks h
  · exact List.mem_cons.mpr (.inl (lookup_new h).2)
  · exact List.mem_cons_of_mem _ h

theorem addBlocks_append (D : DagStore) (headers headers' : List Header) :
    D.addBlocks (headers ++ headers') = (D.addBlocks headers).addBlocks headers' :=
  List.foldl_append

theorem addBlocks_concat (D : DagStore) (headers : List Header) (header : Header) :
    D.addBlocks (headers ++ [header]) = ((D.addBlocks headers).addBlock header).1 :=
  D.addBlocks_append headers [header]

theorem addBlocks_fixed (headers : List Header) (D : DagStore) :
    (D.addBlocks headers).genesis = D.genesis ∧ (D.addBlocks headers).k = D.k ∧
      (D.addBlocks headers).mergesetSizeLimit = D.mergesetSizeLimit := by
  induction headers generalizing D with
  | nil => exact ⟨rfl, rfl, rfl⟩
  | cons header headers ih =>
    obtain ⟨h₁, h₂, h₃⟩ := ih (D.addBlock header).1
    obtain ⟨g₁, g₂, g₃⟩ := addBlock_fixed D header
    exact ⟨h₁.trans g₁, h₂.trans g₂, h₃.trans g₃⟩

end Preserve

end Chainname.DagStore
