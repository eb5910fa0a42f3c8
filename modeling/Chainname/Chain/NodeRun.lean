import Chainname.Chain.Follow
import Chainname.Ghostdag.Determinism

/-!
# Execution is a function of the selected chain

A node grows its DAG and, now and then, computes the reorganisation from the executor's tip
to the virtual selected parent and applies it. Whatever the order, after every step the
executor follows the selected chain of its tip (`NodeInv`), so its results and accounts are
those of an executor that executes that chain from genesis. Two nodes that arrive at the
same tip therefore agree.

The walk of `compute_reorg` stops after 100,000,000 steps, and if the chains differ in more
blocks than that, what it returns is not a reorganisation of the two: a node at genesis that
is given a longer chain at once executes the newest blocks of it only
(`long_reorg_leaves_chain`). So the chains are assumed to differ in no more blocks.
-/

namespace Chainname

open ChainExecutor DagStore

/-- A DAG and the executor that is kept at its selected chain. -/
structure Node where
  dag : DagStore
  executor : ChainExecutor

/-- What happens at a node: a block is added to the DAG, or the chain is reorganised with
the bodies known by then. -/
inductive NodeEvent where
  | addBlock (header : Header)
  | reorg (bodies : BodyStore)

/-- The two stores hold no two blocks of one hash. -/
def NoCollision (D₁ D₂ : DagStore) : Prop :=
  ∀ b h₁ h₂, D₁.headers.lookup b = some h₁ → D₂.headers.lookup b = some h₂ → h₁ = h₂

theorem noCollision_iff {D₁ D₂ : DagStore} : NoCollision D₁ D₂ ↔
    ∀ b ∈ D₁.headers.keys, b ∈ D₂.headers.keys →
      D₁.headers.lookup b = D₂.headers.lookup b := by
  refine ⟨?_, ?_⟩
  · intro h b h₁ h₂
    obtain ⟨header₁, hl₁⟩ := Maps.mem_iff_exists_lookup.mp (Finmap.mem_keys.mp h₁)
    obtain ⟨header₂, hl₂⟩ := Maps.mem_iff_exists_lookup.mp (Finmap.mem_keys.mp h₂)
    rw [hl₁, hl₂, h b header₁ header₂ hl₁ hl₂]
  · intro h b header₁ header₂ hl₁ hl₂
    have hboth := h b (Finmap.mem_keys.mpr (Maps.mem_iff_exists_lookup.mpr ⟨header₁, hl₁⟩))
      (Finmap.mem_keys.mpr (Maps.mem_iff_exists_lookup.mpr ⟨header₂, hl₂⟩))
    exact Option.some.inj (hl₁.symm.trans (hboth.trans hl₂))

/-! ### Stores that agree execute alike -/

section Agree

variable [HeaderHash] {P : BlockHash → Prop} {D₁ D₂ : DagStore}

theorem taggedTransactions_of_agree (h : AgreeOn P D₁ D₂) (hD : D₁.Valid) {b : BlockHash}
    (hb : P b) (bodies : BodyStore) :
    taggedTransactions D₁ bodies b = taggedTransactions D₂ bodies b := by
  unfold taggedTransactions
  rw [← h.baseSequence_eq hb]
  congr 1
  refine List.flatMap_congr fun source hsource => ?_
  have hanc := hD.anc_of_mem_baseSequence (h.mem hb) hsource
  rw [h.header_eq (h.closed_anc hb hanc)]

omit [HeaderHash] in
theorem taggedTransactions_of_bodies {D : DagStore} {bodies bodies' : BodyStore} {b : BlockHash}
    (h : ∀ source ∈ D.baseSequence b, bodies.get source = bodies'.get source) :
    taggedTransactions D bodies b = taggedTransactions D bodies' b := by
  unfold taggedTransactions
  congr 1
  refine List.flatMap_congr fun source hsource => ?_
  rw [h source hsource]

variable [Evm] [Trie] [FeeRule]

theorem executeChainBlock_of_agree (h : AgreeOn P D₁ D₂) (hD : D₁.Valid) {b : BlockHash}
    (hb : P b) (bodies : BodyStore) (X : ChainExecutor) :
    X.executeChainBlock D₁ bodies b = X.executeChainBlock D₂ bodies b := by
  unfold executeChainBlock
  rw [taggedTransactions_of_agree h hD hb, h.header_eq hb]

theorem onChain_of_agree (h : AgreeOn P D₁ D₂) (hD : D₁.Valid) (start : ChainExecutor)
    (bodies : BodyStore) {chain : List BlockHash} (hchain : ∀ b ∈ chain, P b) :
    onChain start D₁ bodies chain = onChain start D₂ bodies chain := by
  induction chain with
  | nil => rfl
  | cons hash older ih =>
    unfold onChain
    rw [ih fun b hb => hchain b (List.mem_cons_of_mem hash hb),
      executeChainBlock_of_agree h hD (hchain hash List.mem_cons_self)]

theorem undoes_of_agree (h : AgreeOn P D₁ D₂) (hD : D₁.Valid) {start : ChainExecutor}
    {bodies : BodyStore} {records : List (ℕ × BlockHash × UndoRecord)} :
    ∀ {chain : List BlockHash}, (∀ b ∈ chain, P b) → Undoes start D₁ bodies records chain →
      Undoes start D₂ bodies records chain := by
  -- record by record along the chain, each restored between states the two stores share
  induction records with
  | nil => exact fun _ _ => trivial
  | cons entry records ih =>
    intro chain hchain hund
    cases chain with
    | nil => exact absurd hund id
    | cons hash older =>
      have holder : ∀ b ∈ older, P b := fun b hb => hchain b (List.mem_cons_of_mem hash hb)
      obtain ⟨hheight, hhash, hrestores, hrest⟩ := hund
      refine ⟨hheight, hhash, ?_, ih holder hrest⟩
      rw [← onChain_of_agree h hD start bodies holder, ← onChain_of_agree h hD start bodies hchain]
      exact hrestores

/-- An executor that follows a chain in a store follows it in a store that agrees. -/
theorem follows_of_agree (h : AgreeOn P D₁ D₂) (hD : D₁.Valid) {codeOf : B256 → Bytecode}
    {start X : ChainExecutor} {bodies : BodyStore} {chain : List BlockHash}
    (hchain : ∀ b ∈ chain, P b) (hfollows : Follows codeOf start D₁ bodies X chain) :
    Follows codeOf start D₂ bodies X chain := by
  refine ⟨?_, undoes_of_agree h hD hchain hfollows.journal, fun older holder => ?_⟩
  · rw [← onChain_of_agree h hD start bodies hchain]
    exact hfollows.like
  · rw [← onChain_of_agree h hD start bodies fun b hb => hchain b (holder.subset hb)]
    exact hfollows.held older holder

end Agree

namespace Node

section Run

variable [HeaderHash] [Evm] [Trie] [FeeRule]

/-- A node at genesis. -/
def new (params : ChainParams) (genesisState : WorldState) (genesis : Header) (k : UInt16)
    (mergesetSizeLimit : ℕ) : Node where
  dag := DagStore.new genesis k mergesetSizeLimit
  executor := ChainExecutor.new params genesisState genesis.hash

/-- The reorganisation to the virtual selected parent. -/
def pending (n : Node) : ChainReorg :=
  n.dag.computeReorg n.executor.tip n.dag.virtualSelectedParent

/-- One step of a node. -/
def step (n : Node) : NodeEvent → Node
  | .addBlock header => { n with dag := (n.dag.addBlock header).1 }
  | .reorg bodies =>
    { n with
      executor := (n.executor.applyReorg n.dag bodies n.pending.removed n.pending.added).1 }

/-- A reorganisation returns `Ok`, and the bodies of the blocks it executes are the ones they
have for good. -/
def Succeeds (bodies : BodyStore) (n : Node) : NodeEvent → Prop
  | .addBlock _ => True
  | .reorg known =>
    (n.executor.applyReorg n.dag known n.pending.removed n.pending.added).2.isOk = true ∧
      ∀ hash ∈ n.pending.added, ∀ source ∈ n.dag.baseSequence hash,
        known.get source = bodies.get source

/-- The chains a reorganisation goes between differ in no more blocks than the walk of
`compute_reorg` may pass. -/
def InReach (n : Node) : NodeEvent → Prop
  | .addBlock _ => True
  | .reorg _ =>
    n.dag.divergence n.executor.tip n.dag.virtualSelectedParent ≤ maxReorgWalk

/-- What is assumed of a step. -/
def Legal (bodies : BodyStore) (n : Node) (event : NodeEvent) : Prop :=
  n.Succeeds bodies event ∧ n.InReach event

/-- The executor is where a fresh one is that executes the selected chain of its tip. -/
structure OnSelectedChain (start : ChainExecutor) (bodies : BodyStore) (n : Node) : Prop where
  /-- The height is the position of the tip on its chain. -/
  height : n.executor.height + 1 = (n.dag.selectedParentChain n.executor.tip).length
  /-- The result of every height is that of the chain block there. -/
  hash_at : ∀ i ≤ n.executor.height,
    n.executor.hashAt i = (n.dag.selectedParentChain n.executor.tip).reverse[i]?
  /-- A fresh executor that executes the chain has the same results and accounts. -/
  fresh : ∃ F outcomes, start.executeAll n.dag bodies
      (n.dag.selectedParentChain n.executor.tip).reverse.tail [] = (F, .ok outcomes) ∧
    F.results = n.executor.results ∧ F.state.accounts = n.executor.state.accounts

/-- The invariant of a node: the executor follows the chain of its tip, a block of the DAG. -/
structure NodeInv (codeOf : B256 → Bytecode) (start : ChainExecutor) (bodies : BodyStore)
    (n : Node) : Prop where
  valid : n.dag.Valid
  tip_mem : n.executor.tip ∈ n.dag.headers
  genesis_at : start.hashAt 0 = some n.dag.genesis
  follows : Follows codeOf start n.dag bodies n.executor
    (n.dag.selectedParentChain n.executor.tip).dropLast

variable {codeOf : B256 → Bytecode} {start : ChainExecutor} {bodies : BodyStore}

omit [Evm] [Trie] [FeeRule] in
/-- The blocks of a chain are stored. -/
theorem mem_of_mem_dropLast {D : DagStore} (hD : D.Valid) {tip b : BlockHash}
    (htip : tip ∈ D.headers) (hb : b ∈ (D.selectedParentChain tip).dropLast) : b ∈ D.headers :=
  (hD.anc_of_mem_chain htip (List.dropLast_subset _ hb)).mem hD.layered.toRooted htip

/-! ### What the invariant says -/

omit [HeaderHash] in
variable (bodies) in
/-- The hashes that the reference records are those of the chain. -/
theorem hashAt_onChain (hcode : CodeByHash codeOf) (hstart : Start codeOf start) {D : DagStore}
    (hgenesis : start.hashAt 0 = some D.genesis) {chain : List BlockHash}
    (hknown : ∀ b ∈ chain, b ∈ D.headers) : ∀ i ≤ chain.length,
      (onChain start D bodies chain).hashAt i = (chain ++ [D.genesis]).reverse[i]? := by
  induction chain with
  | nil =>
    intro i hi
    obtain rfl : i = 0 := Nat.le_zero.mp hi
    exact hgenesis
  | cons hash older ih =>
    intro i hi
    have hknown' : ∀ b ∈ older, b ∈ D.headers := fun b hb =>
      hknown b (List.mem_cons_of_mem hash hb)
    obtain ⟨outcome, record, hexec⟩ := onChain_executed hcode hstart bodies hknown
    have hheight := (onChain_facts hcode hstart bodies hknown').1
    unfold hashAt
    rw [hexec.results, hheight, Maps.lookup_insert, List.cons_append, List.reverse_cons]
    -- the block on top holds the new height, the lower ones are as before
    by_cases htop : i = older.length + 1
    · rw [if_pos htop, List.getElem?_append_right (by simp [htop]), htop]
      simp [hexec.hash_eq]
    · rw [List.length_cons] at hi
      rw [if_neg htop, List.getElem?_append_left (by simp; omega)]
      exact ih hknown' i (by omega)

/-- **The invariant puts the executor on the selected chain.** -/
theorem NodeInv.onSelectedChain (hcode : CodeByHash codeOf) (hstart : Start codeOf start)
    {n : Node} (h : NodeInv codeOf start bodies n) : OnSelectedChain start bodies n := by
  have hknown : ∀ b ∈ (n.dag.selectedParentChain n.executor.tip).dropLast, b ∈ n.dag.headers :=
    fun b hb => mem_of_mem_dropLast h.valid h.tip_mem hb
  have hchain := h.valid.chain_eq_dropLast h.tip_mem
  have hlike := h.follows.like
  have hheight : n.executor.height
      = (n.dag.selectedParentChain n.executor.tip).dropLast.length := by
    rw [← hlike.height, (onChain_facts hcode hstart bodies hknown).1]
  refine ⟨?_, fun i hi => ?_, ?_⟩
  · rw [hheight, hchain, List.dropLast_concat, List.length_append]
    rfl
  · rw [hheight] at hi
    have hat := hashAt_onChain bodies hcode hstart h.genesis_at hknown i hi
    rw [← hchain] at hat
    rw [← hat]
    unfold hashAt
    rw [hlike.results]
  · -- the fresh executor follows the chain, too
    have htail : (n.dag.selectedParentChain n.executor.tip).reverse.tail
        = (n.dag.selectedParentChain n.executor.tip).dropLast.reverse := by
      rw [hchain, List.dropLast_concat, List.reverse_append]
      rfl
    have hsame : ∀ hash ∈ (n.dag.selectedParentChain n.executor.tip).dropLast.reverse,
        taggedTransactions n.dag bodies hash = taggedTransactions n.dag bodies hash :=
      fun _ _ => rfl
    obtain ⟨hfresh, hok, -⟩ := (follows_start hcode hstart bodies).executeAll hcode hstart []
      (by rw [List.reverse_reverse, List.append_nil]; exact hknown) hsame
    rw [List.reverse_reverse, List.append_nil] at hfresh
    rw [htail]
    cases hrun : start.executeAll n.dag bodies
      (n.dag.selectedParentChain n.executor.tip).dropLast.reverse [] with
    | mk F result =>
      rw [hrun] at hfresh hok
      cases result with
      | error e => exact absurd hok Bool.false_ne_true
      | ok outcomes =>
        refine ⟨F, outcomes, rfl, ?_, ?_⟩
        · exact hfresh.like.results.symm.trans hlike.results
        · exact hfresh.like.view.accounts.symm.trans hlike.view.accounts

/-! ### Steps -/

/-- A reorganisation whose walk meets takes the executor to the chain of the virtual selected
parent. -/
theorem NodeInv.reorg (hcode : CodeByHash codeOf) (hstart : Start codeOf start) {n : Node}
    (h : NodeInv codeOf start bodies n) {known : BodyStore} (hlegal : Legal bodies n (.reorg known)) :
    NodeInv codeOf start bodies (n.step (.reorg known)) := by
  obtain ⟨⟨hok, hbodies⟩, hreach⟩ := hlegal
  have hvspMem := (h.valid.mem_tips.mp h.valid.virtualSelectedParent_mem).1
  obtain ⟨fork, hfork, hold, hnew, hlast⟩ := h.valid.reorgToSelected h.tip_mem hreach
  change _ = n.pending.removed ++ _ at hold
  change _ = n.pending.added.reverse ++ _ at hnew
  -- both chains without genesis, over that of the fork
  have hne : n.dag.selectedParentChain fork ≠ [] := by
    rw [h.valid.chain_eq_dropLast hfork]
    exact List.append_ne_nil_of_right_ne_nil _ (List.cons_ne_nil _ _)
  have hold' : (n.dag.selectedParentChain n.executor.tip).dropLast
      = n.pending.removed ++ (n.dag.selectedParentChain fork).dropLast := by
    rw [hold, List.dropLast_append_of_ne_nil hne]
  have hnew' : (n.dag.selectedParentChain n.dag.virtualSelectedParent).dropLast
      = n.pending.added.reverse ++ (n.dag.selectedParentChain fork).dropLast := by
    rw [hnew, List.dropLast_append_of_ne_nil hne]
  have hknown : ∀ b ∈ (n.dag.selectedParentChain n.dag.virtualSelectedParent).dropLast,
      b ∈ n.dag.headers := fun b hb => mem_of_mem_dropLast h.valid hvspMem hb
  unfold applyReorg at hok
  cases hundo : n.executor.undoAll n.pending.removed with
  | mk X result =>
    rw [hundo] at hok
    cases result with
    | error e => exact absurd hok Bool.false_ne_true
    | ok _ =>
      obtain ⟨older, holder, hX⟩ := h.follows.undoAll hcode hstart
        (fun b hb => mem_of_mem_dropLast h.valid h.tip_mem hb) hundo
      obtain rfl : older = (n.dag.selectedParentChain fork).dropLast := by
        rw [hold'] at holder
        exact (List.append_cancel_left holder).symm
      have htagged : ∀ hash ∈ n.pending.added,
          taggedTransactions n.dag known hash = taggedTransactions n.dag bodies hash :=
        fun hash hm => taggedTransactions_of_bodies (hbodies hash hm)
      obtain ⟨hfollows, -, htip⟩ := hX.executeAll hcode hstart [] (by rw [← hnew']; exact hknown)
        htagged
      rw [← hnew'] at hfollows
      have hstep : (n.step (.reorg known)).executor
          = (X.executeAll n.dag known n.pending.added []).1 := by
        show (n.executor.applyReorg n.dag known n.pending.removed n.pending.added).1 = _
        unfold applyReorg
        rw [hundo]
      -- the tip: the last block executed, or nothing was to be done
      have htipEq : (n.step (.reorg known)).executor.tip = n.dag.virtualSelectedParent := by
        rw [hstep, htip]
        by_cases htipOld : n.executor.tip = n.dag.virtualSelectedParent
        · have hpending : n.pending = ⟨[], []⟩ := by
            unfold pending computeReorg
            rw [if_pos htipOld]
          rw [hpending] at hundo ⊢
          obtain ⟨rfl, -⟩ := Prod.mk.inj hundo
          exact htipOld
        · have hadded : n.pending.added.getLast? = some n.dag.virtualSelectedParent :=
            hlast htipOld
          rw [hadded]
          rfl
      refine ⟨h.valid, ?_, h.genesis_at, ?_⟩
      · show (n.step (.reorg known)).executor.tip ∈ n.dag.headers
        rw [htipEq]
        exact hvspMem
      · show Follows codeOf start n.dag bodies _ (n.dag.selectedParentChain _).dropLast
        rw [htipEq, hstep]
        exact hfollows

/-- **Every step keeps the invariant.** -/
theorem NodeInv.step (hcode : CodeByHash codeOf) (hstart : Start codeOf start) {n : Node}
    (h : NodeInv codeOf start bodies n) {event : NodeEvent} (hlegal : Legal bodies n event) :
    NodeInv codeOf start bodies (n.step event) := by
  cases event with
  | addBlock header =>
    -- a new block leaves the selected chain of the tip as it was
    have hagree := h.valid.addBlock_agree header
    refine ⟨h.valid.addBlock header, hagree.mem' h.tip_mem, ?_, ?_⟩
    · rw [h.genesis_at]
      exact congrArg some hagree.genesis_eq
    · show Follows codeOf start (n.dag.addBlock header).1 bodies n.executor
        ((n.dag.addBlock header).1.selectedParentChain n.executor.tip).dropLast
      rw [← hagree.selectedParentChain_eq h.tip_mem]
      exact follows_of_agree hagree h.valid
        (fun b hb => mem_of_mem_dropLast h.valid h.tip_mem hb) h.follows
  | reorg known => exact h.reorg hcode hstart hlegal

/-- A node at genesis. -/
theorem nodeInv_new (hcode : CodeByHash codeOf) (params : ChainParams)
    {genesisState : WorldState} (hgenesis : WellCoded codeOf genesisState) (genesis : Header)
    (k : UInt16) (limit : ℕ) :
    NodeInv codeOf (ChainExecutor.new params genesisState genesis.hash) bodies
      (new params genesisState genesis k limit) := by
  have hvalid := new_valid genesis k limit
  refine ⟨hvalid, hvalid.genesis_mem, ?_, ?_⟩
  · exact (bookkeeping_new params genesisState genesis.hash).tip
  · show Follows codeOf _ _ bodies _
      ((DagStore.new genesis k limit).selectedParentChain (DagStore.new genesis k limit).genesis).dropLast
    rw [selectedParentChain_genesis]
    exact follows_start hcode (start_new genesis.hash hgenesis) bodies

/-! ### Two nodes -/

omit [Evm] [Trie] [FeeRule] in
/-- Blocks of one hash being the same, a block both stores hold has the same past in both. -/
theorem lookup_eq_of_anc {D₁ D₂ : DagStore} (hD₁ : D₁.Valid) (hD₂ : D₂.Valid)
    (hgenesis : D₁.genesis = D₂.genesis) (hno : NoCollision D₁ D₂) {b : BlockHash}
    (h₁ : b ∈ D₁.headers) (h₂ : b ∈ D₂.headers) {a : BlockHash} (ha : D₁.Anc a b) :
    a ∈ D₁.headers ∧ a ∈ D₂.headers ∧ D₁.headers.lookup a = D₂.headers.lookup a := by
  have hboth : ∀ {x}, x ∈ D₁.headers → x ∈ D₂.headers →
      D₁.headers.lookup x = D₂.headers.lookup x := fun h₁ h₂ =>
    noCollision_iff.mp hno _ (Finmap.mem_keys.mpr h₁) (Finmap.mem_keys.mpr h₂)
  suffices a ∈ D₁.headers ∧ a ∈ D₂.headers from ⟨this.1, this.2, hboth this.1 this.2⟩
  -- from `b` back along the edges, which the other store has as well
  induction ha using Relation.ReflTransGen.head_induction_on with
  | refl => exact ⟨h₁, h₂⟩
  | @head parent child hedge _ ih =>
    refine ⟨hD₁.parent_mem hedge, ?_⟩
    obtain ⟨header, hl, hne, hp⟩ := hedge
    have hedge' : D₂.Edge parent child :=
      ⟨header, (hboth ih.1 ih.2).symm.trans hl, hgenesis ▸ hne, hp⟩
    exact hD₂.parent_mem hedge'

/-- Two nodes at the same tip have the same results and accounts. -/
theorem NodeInv.same_tip {n₁ n₂ : Node} (h₁ : NodeInv codeOf start bodies n₁)
    (h₂ : NodeInv codeOf start bodies n₂) (hk : n₁.dag.k = n₂.dag.k)
    (hlimit : n₁.dag.mergesetSizeLimit = n₂.dag.mergesetSizeLimit)
    (hno : NoCollision n₁.dag n₂.dag) (htip : n₁.executor.tip = n₂.executor.tip) :
    n₁.executor.results = n₂.executor.results ∧
      n₁.executor.state.accounts = n₂.executor.state.accounts := by
  have hgenesis : n₁.dag.genesis = n₂.dag.genesis :=
    Option.some.inj (h₁.genesis_at.symm.trans h₂.genesis_at)
  have hmem : n₁.executor.tip ∈ n₂.dag.headers := htip ▸ h₂.tip_mem
  have hpast : PastAgrees n₁.dag n₂.dag n₁.executor.tip := fun a ha =>
    (lookup_eq_of_anc h₁.valid h₂.valid hgenesis hno h₁.tip_mem hmem ha).2.2
  -- the stores agree on everything behind the tip
  have hagree : AgreeOn (fun b => n₁.dag.Anc b n₁.executor.tip) n₁.dag n₂.dag := by
    refine ⟨hk, hgenesis, hlimit, fun ha => hpast _ ha, fun ha => ?_, fun ha => ?_, ?_, ?_⟩
    · exact h₁.valid.data_eq_of_past h₂.valid hk hgenesis hlimit hpast _ ha
    · exact ha.mem h₁.valid.layered.toRooted h₁.tip_mem
    · exact fun hc hedge => hedge.anc.trans hc
    · intro b data hb hdata
      by_cases hne : b = n₁.dag.genesis
      · rw [hne] at hdata
        rw [h₁.valid.selected_genesis hdata, ← hne]
        exact hb
      · exact (h₁.valid.selected_edge hdata hne).anc.trans hb
  have hchain := hagree.selectedParentChain_eq (Anc.refl n₁.executor.tip)
  have honChain : onChain start n₁.dag bodies (n₁.dag.selectedParentChain n₁.executor.tip).dropLast
      = onChain start n₂.dag bodies (n₂.dag.selectedParentChain n₂.executor.tip).dropLast := by
    rw [onChain_of_agree hagree h₁.valid start bodies fun b hb =>
      h₁.valid.anc_of_mem_chain h₁.tip_mem (List.dropLast_subset _ hb), hchain, htip]
  have hlike₁ := h₁.follows.like
  have hlike₂ := h₂.follows.like
  rw [honChain] at hlike₁
  exact ⟨hlike₁.results.symm.trans hlike₂.results,
    hlike₁.view.accounts.symm.trans hlike₂.view.accounts⟩

/-! ### Runs -/

/-- What the DAG of a node is built from never changes. -/
theorem step_fixed (n : Node) (event : NodeEvent) :
    (n.step event).dag.k = n.dag.k ∧
      (n.step event).dag.mergesetSizeLimit = n.dag.mergesetSizeLimit := by
  cases event with
  | addBlock header => exact (addBlock_fixed n.dag header).2
  | reorg known => exact ⟨rfl, rfl⟩

theorem run_fixed (n : Node) (events : List NodeEvent) :
    (Runs.after step n events).dag.k = n.dag.k ∧
      (Runs.after step n events).dag.mergesetSizeLimit = n.dag.mergesetSizeLimit := by
  induction events generalizing n with
  | nil => exact ⟨rfl, rfl⟩
  | cons event events ih =>
    obtain ⟨hk, hlimit⟩ := ih (n.step event)
    obtain ⟨hk', hlimit'⟩ := step_fixed n event
    exact ⟨hk.trans hk', hlimit.trans hlimit'⟩

/-- **Execution is a function of the selected chain.** In every run of a node whose
reorganisations succeed and are in reach, the executor is on the selected chain of its tip
after every step. Two such runs that end at the same tip end with the same results and
accounts. -/
theorem execution_follows_selected_chain (hcode : CodeByHash codeOf) (params : ChainParams)
    {genesisState : WorldState} (hgenesis : WellCoded codeOf genesisState) (genesis : Header)
    (k : UInt16) (limit : ℕ) (bodies : BodyStore) (events events' : List NodeEvent)
    (hlegal : Runs.Each step (Legal bodies) (new params genesisState genesis k limit) events)
    (hlegal' : Runs.Each step (Legal bodies) (new params genesisState genesis k limit) events') :
    Runs.Throughout step
        (OnSelectedChain (ChainExecutor.new params genesisState genesis.hash) bodies)
        (new params genesisState genesis k limit) events ∧
      ∀ n n', n = Runs.after step (new params genesisState genesis k limit) events →
        n' = Runs.after step (new params genesisState genesis k limit) events' →
        NoCollision n.dag n'.dag → n.executor.tip = n'.executor.tip →
        n.executor.results = n'.executor.results ∧
          n.executor.state.accounts = n'.executor.state.accounts := by
  have hstart : Start codeOf (ChainExecutor.new params genesisState genesis.hash) :=
    start_new genesis.hash hgenesis
  have hnew : NodeInv codeOf (ChainExecutor.new params genesisState genesis.hash) bodies
      (new params genesisState genesis k limit) :=
    nodeInv_new hcode params hgenesis genesis k limit
  -- one invariant for both runs; equal tips then give equal chains
  have hinv := hlegal.throughout (fun n event h hl => h.step hcode hstart hl) hnew
  have hinv' := hlegal'.throughout (fun n event h hl => h.step hcode hstart hl) hnew
  refine ⟨hinv.imp fun n h => h.onSelectedChain hcode hstart, ?_⟩
  rintro n n' rfl rfl hno htip
  refine hinv.last.same_tip hinv'.last ?_ ?_ hno htip
  · rw [(run_fixed _ events).1, (run_fixed _ events').1]
  · rw [(run_fixed _ events).2, (run_fixed _ events').2]

end Run

/-! ### Blocks to evaluate on -/

end Node

/-! ### A reorganisation, and one out of reach -/

namespace Idle

open Sample

/-- A node over an empty state, at genesis. -/
def node : Node := .new params ⟨∅, ∅, ∅⟩ root 2 10

theorem idle_codeByHash : CodeByHash fun _ => [] :=
  ⟨rfl, fun _ _ _ _ _ _ _ _ _ => rfl, fun h => absurd h.symm (Option.some_ne_none _),
    fun h => absurd h.symm (Option.some_ne_none _)⟩

theorem idle_wellCoded : WellCoded (fun _ => []) ⟨∅, ∅, ∅⟩ :=
  ⟨fun hash bytes h => absurd h (by simp), fun _ _ _ h => absurd rfl h⟩

/-- A block joins the chain, and two blocks beside it take its place. -/
def overtaken : List NodeEvent :=
  [.addBlock (block 1 [0] 0x2000ffff), .reorg ∅, .addBlock (block 2 [0] 0x2000ffff),
    .addBlock (block 3 [2] 0x2000ffff), .reorg ∅]

/-- The two blocks alone, one after the other. -/
def direct : List NodeEvent :=
  [.addBlock (block 2 [0] 0x2000ffff), .reorg ∅, .addBlock (block 3 [2] 0x2000ffff), .reorg ∅]

end Idle

namespace Node

open Idle Sample

/-- A node that undoes a block and one that never saw it agree. -/
theorem execution_follows_selected_chain_overtaken :
    (Runs.after step node overtaken).executor.results
      = (Runs.after step node direct).executor.results := by
  have hbodies : ∀ (n : Node), ∀ hash ∈ n.pending.added, ∀ source ∈ n.dag.baseSequence hash,
      BodyStore.get ∅ source = BodyStore.get ∅ source := fun _ _ _ _ _ => rfl
  refine ((execution_follows_selected_chain idle_codeByHash params idle_wellCoded root 2 10 ∅
    overtaken direct ?_ ?_).2 (Runs.after step node overtaken) (Runs.after step node direct) rfl rfl
      ?_ ?_).1
  · refine ⟨⟨trivial, trivial⟩, ⟨⟨?_, hbodies _⟩, ?_⟩, ⟨trivial, trivial⟩, ⟨trivial, trivial⟩,
      ⟨⟨?_, hbodies _⟩, ?_⟩, trivial⟩
    · decide +kernel
    · show _ ≤ _
      decide +kernel
    · decide +kernel
    · show _ ≤ _
      decide +kernel
  · refine ⟨⟨trivial, trivial⟩, ⟨⟨?_, hbodies _⟩, ?_⟩, ⟨trivial, trivial⟩,
      ⟨⟨?_, hbodies _⟩, ?_⟩, trivial⟩
    · decide +kernel
    · show _ ≤ _
      decide +kernel
    · decide +kernel
    · show _ ≤ _
      decide +kernel
  · -- the two stores hold the same headers where both hold one
    refine noCollision_iff.mpr fun b _ hb => ?_
    have hkeys : (Runs.after step node direct).dag.headers.keys
        = {hashOf 0, hashOf 2, hashOf 3} := by decide +kernel
    have hsame : ∀ i ∈ [0, 2, 3],
        (Runs.after step node overtaken).dag.headers.lookup (hashOf i)
          = (Runs.after step node direct).dag.headers.lookup (hashOf i) := by decide +kernel
    have hmem : b ∈ ({hashOf 0, hashOf 2, hashOf 3} : Finset BlockHash) := hkeys ▸ hb
    rw [Finset.mem_insert, Finset.mem_insert, Finset.mem_singleton] at hmem
    rcases hmem with rfl | rfl | rfl
    · exact hsame 0 (by simp)
    · exact hsame 2 (by simp)
    · exact hsame 3 (by simp)
  · decide +kernel

/-! #### A chain that is out of reach -/

/-- Blocks on genesis, each over the one before. -/
def ladder (n : ℕ) : List Header :=
  (List.range n).map fun i => block (i + 1) [i] 0x2000ffff

/-- The store of a ladder is one chain. -/
theorem ladder_store {n : ℕ} (hn : n < 2 ^ 64) :
    ((DagStore.new root 2 10).addBlocks (ladder n)).tips = {hashOf n} ∧
      (((DagStore.new root 2 10).addBlocks (ladder n)).selectedParentChain (hashOf n)).length
        = n + 1 ∧
      ∀ b ∈ ((DagStore.new root 2 10).addBlocks (ladder n)).headers, ∃ i ≤ n, b = hashOf i := by
  have hvalid : ∀ n, ((DagStore.new root 2 10).addBlocks (ladder n)).Valid := fun n =>
    (new_valid root 2 10).addBlocks (ladder n)
  -- each rung on top of the last one: one tip, a chain one longer, no new hash twice
  induction n with
  | zero =>
    refine ⟨rfl, ?_, fun b hb => ⟨0, le_rfl, ?_⟩⟩
    · exact congrArg List.length (selectedParentChain_genesis (DagStore.new root 2 10))
    · exact (Finmap.mem_singleton _ _ _).mp hb
  | succ n ih =>
    have hn' : n < 2 ^ 64 := by omega
    obtain ⟨htips, hlen, hmem⟩ := ih hn'
    have hladder : ladder (n + 1) = ladder n ++ [block (n + 1) [n] 0x2000ffff] := by
      unfold ladder
      rw [List.range_succ, List.map_append, List.map_singleton]
    have hvalid := hvalid n
    rw [hladder, addBlocks_concat]
    set D := (DagStore.new root 2 10).addBlocks (ladder n)
    have hparents : (block (n + 1) [n] 0x2000ffff).parents = [hashOf n] := rfl
    have htip : hashOf n ∈ D.headers :=
      (hvalid.mem_tips.mp (htips ▸ Finset.mem_singleton_self _)).1
    have hhash := block_hash hn [n] 0x2000ffff
    have hfresh : (block (n + 1) [n] 0x2000ffff).hash ∉ D.headers := by
      intro h
      obtain ⟨i, hi, he⟩ := hmem _ h
      have := hashOf_injOn hn (by omega) (hhash.symm.trans he)
      omega
    obtain ⟨-, hontop⟩ := hvalid.addBlock_onTop hparents htip hfresh
    obtain ⟨hchain, -, -⟩ := hvalid.onTop_facts hparents htip hfresh
    refine ⟨?_, ?_, fun b hb => ?_⟩
    · rw [hontop.tips, htips, hhash]
      simp
    · rw [← hhash, hchain, List.length_cons, hlen]
    · rw [hontop.headers] at hb
      obtain h | h := Finmap.mem_insert.mp hb
      · exact ⟨n + 1, le_rfl, h.trans hhash⟩
      · obtain ⟨i, hi, he⟩ := hmem b h
        exact ⟨i, by omega, he⟩

/-- Blocks join the DAG of a node at genesis, which then reorganises. -/
def climb (headers : List Header) : List NodeEvent := headers.map .addBlock ++ [.reorg ∅]

/-- Blocks that join the DAG leave the executor alone. -/
theorem after_addBlocks (n : Node) (headers : List Header) (rest : List NodeEvent) :
    Runs.after step n (headers.map .addBlock ++ rest)
      = Runs.after step { n with dag := n.dag.addBlocks headers } rest := by
  induction headers generalizing n with
  | nil => rfl
  | cons header headers ih => exact ih (n.step (.addBlock header))

theorem each_addBlocks {bodies : BodyStore} (n : Node) (headers : List Header)
    (rest : List NodeEvent)
    (h : Runs.Each step (Succeeds bodies) { n with dag := n.dag.addBlocks headers } rest) :
    Runs.Each step (Succeeds bodies) n (headers.map .addBlock ++ rest) := by
  induction headers generalizing n with
  | nil => exact h
  | cons header headers ih => exact ⟨trivial, ih (n.step (.addBlock header)) h⟩

theorem after_climb (headers : List Header) :
    Runs.after step node (climb headers)
      = step ⟨(DagStore.new root 2 10).addBlocks headers, Idle.start⟩ (.reorg ∅) :=
  after_addBlocks node headers [.reorg ∅]

/-- A node at genesis that reorganises to a chain longer than the guard executes the newest
blocks of it only, as many as the guard allows. -/
theorem reorg_past_guard {D : DagStore} (hD : D.Valid) (hgenesis : D.genesis = hashOf 0)
    {top : BlockHash} (htips : D.tips = {top})
    (hlen : (D.selectedParentChain top).length = maxReorgWalk + 2) :
    Succeeds ∅ ⟨D, Idle.start⟩ (.reorg ∅) ∧
      (step ⟨D, Idle.start⟩ (.reorg ∅)).executor.height = maxReorgWalk ∧
      (step ⟨D, Idle.start⟩ (.reorg ∅)).executor.tip = top := by
  have htop : top ∈ D.headers := (hD.mem_tips.mp (htips ▸ Finset.mem_singleton_self top)).1
  have hvsp : D.virtualSelectedParent = top :=
    Finset.mem_singleton.mp (htips ▸ hD.virtualSelectedParent_mem)
  have hne : Idle.start.tip ≠ top := by
    intro he
    have hchain : D.selectedParentChain top = [D.genesis] := by
      rw [← he, show Idle.start.tip = D.genesis from hgenesis.symm]
      exact selectedParentChain_genesis D
    rw [hchain, List.length_singleton] at hlen
    omega
  -- the walk stops one block above genesis
  have hwalk : (D.walkBetween Idle.start.tip top).removed = [] ∧
      (D.walkBetween Idle.start.tip top).added
        = [] ++ (D.selectedParentChain top).take maxReorgWalk :=
    hD.reorgWalk_from_genesis maxReorgWalk ⟨Idle.start.tip, top, [], []⟩ hgenesis.symm htop
      (by rw [hlen]; omega)
  generalize hchain : (D.selectedParentChain top).take maxReorgWalk = chain at hwalk
  have hpending : (⟨D, Idle.start⟩ : Node).pending = ⟨[], chain.reverse⟩ := by
    show D.computeReorg Idle.start.tip D.virtualSelectedParent = _
    unfold computeReorg
    rw [hvsp, if_neg hne, hwalk.1, hwalk.2, List.nil_append]
  have hrun : Idle.start.applyReorg D ∅ (⟨D, Idle.start⟩ : Node).pending.removed
      (⟨D, Idle.start⟩ : Node).pending.added
        = Idle.start.executeAll D ∅ chain.reverse [] := by
    rw [hpending]
    rfl
  have hstart : Start (fun _ => []) Idle.start := start_new (hashOf 0) idle_wellCoded
  have hknown : ∀ b ∈ chain, b ∈ D.headers := fun b hb =>
    (hD.anc_of_mem_chain htop (List.mem_of_mem_take (hchain ▸ hb))).mem
      hD.layered.toRooted htop
  have hall : ∀ b ∈ chain.reverse.reverse ++ [], b ∈ D.headers := by
    rw [List.reverse_reverse, List.append_nil]
    exact hknown
  have hsame : ∀ hash ∈ chain.reverse,
      taggedTransactions D ∅ hash = taggedTransactions D ∅ hash := fun _ _ => rfl
  obtain ⟨hfollows, hok, htip⟩ := (follows_start idle_codeByHash hstart ∅).executeAll
    idle_codeByHash hstart [] hall hsame
  rw [List.reverse_reverse, List.append_nil] at hfollows
  have hhead : chain.head? = some top := by
    rw [← hchain, List.head?_take, hD.head?_chain htop]
    simp [maxReorgWalk]
  refine ⟨⟨?_, fun _ _ _ _ => rfl⟩, ?_, ?_⟩
  · rw [hrun]
    exact hok
  · show (Idle.start.applyReorg D ∅ _ _).1.height = _
    rw [hrun, ← hfollows.like.height, (onChain_facts idle_codeByHash hstart ∅ hknown).1,
      ← hchain, List.length_take, hlen]
    omega
  · show (Idle.start.applyReorg D ∅ _ _).1.tip = _
    rw [hrun, htip, List.getLast?_reverse, hhead]
    rfl

/-- A node at genesis that reorganises to a chain of 100,000,001 blocks executes all of it
but the oldest block, and its height is one short of its tip. -/
theorem long_reorg_leaves_chain :
    CodeByHash (fun _ => []) ∧ WellCoded (fun _ => []) ⟨∅, ∅, ∅⟩ ∧
      Runs.Each step (Succeeds ∅) node (climb (ladder (maxReorgWalk + 1))) ∧
      ¬ Runs.Throughout step (OnSelectedChain Idle.start ∅) node
        (climb (ladder (maxReorgWalk + 1))) := by
  have hguard : maxReorgWalk + 1 < 2 ^ 64 := by
    unfold maxReorgWalk
    omega
  have hstore := ladder_store hguard
  generalize ladder (maxReorgWalk + 1) = headers at hstore
  obtain ⟨htips, hlen, -⟩ := hstore
  obtain ⟨hok, hheight, htip⟩ := reorg_past_guard ((new_valid root 2 10).addBlocks headers)
    (addBlocks_fixed headers (DagStore.new root 2 10)).1 htips hlen
  refine ⟨idle_codeByHash, idle_wellCoded,
    each_addBlocks node headers _ ⟨hok, trivial⟩, fun h => ?_⟩
  -- the height and the tip do not fit together
  have hfits := h.last.height
  rw [after_climb, hheight, htip] at hfits
  have hdag : (step ⟨(DagStore.new root 2 10).addBlocks headers, Idle.start⟩ (.reorg ∅)).dag
      = (DagStore.new root 2 10).addBlocks headers := rfl
  rw [hdag, hlen] at hfits
  omega

end Node

end Chainname
