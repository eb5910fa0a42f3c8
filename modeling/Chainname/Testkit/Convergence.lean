import Chainname.Ghostdag.ForkChoice
import Chainname.Library.Worklist
import Chainname.Testkit.MiningLog
import Chainname.Testkit.Refinement

/-!
# What a simulation is checked for

Nodes diverge if they hold different blocks, select another tip, or derive another chain; their
states diverge if they have recorded another state root for a height that both have executed, or
have executed to different heights (`divergence`, `stateDivergence`).

The two checks are made one after the other, but they are not independent. In every state that is
reached the blocks decide: nodes that hold the same blocks select the same tip and derive the same
chain, and have executed the same (`divergence_decides`). A state root on which nodes differ is
always that of a height at which their chains differ.
-/

namespace Chainname.Testkit

open ChainExecutor DagStore Runs

/-- What nodes disagree about. The reference is the first node. -/
inductive Disagreement (n : ℕ) where
  | blockSet (node : Fin n) (missing extra reference own : ℕ)
  | chainTip (node : Fin n) (own reference : BlockHash)
  | chain (node : Fin n)
  | stateRoot (node : Fin n) (height : ℕ) (reference own : Option B256)
  | height (node : Fin n) (own reference : ℕ)
  deriving DecidableEq

namespace Simulation

variable {config : SimConfig}

section Code

variable (sim : Simulation config)

/-- The set of block hashes a node holds, found by walking every block reachable from the tips. -/
def blockSet (node : Fin config.nodes) : Finset BlockHash :=
  let dag := (sim.nodes node).sync.dag
  Worklist.explore (fun hash => (dag.headers.lookup hash).elim [] fun header => header.parents.reverse)
    dag.len ∅ dag.sortedTips.reverse

/-- A node's executed chain height. -/
def executedHeight (node : Fin config.nodes) : ℕ := (sim.nodes node).executor.height

/-- A node's recorded state root at a given chain height. -/
def stateRootAt (node : Fin config.nodes) (height : ℕ) : Option B256 :=
  ((sim.nodes node).executor.results.lookup height).map ChainBlockOutcome.stateRoot

/-- The first of all nodes. -/
def first (node : Fin config.nodes) : Fin config.nodes := ⟨0, node.pos⟩

/-- Where a node's state differs from that of the first. -/
def stateDisagreement (node : Fin config.nodes) : Option (Disagreement config.nodes) :=
  let reference := first node
  let height := min (sim.executedHeight reference) (sim.executedHeight node)
  match (List.range (height + 1)).find? fun h =>
      sim.stateRootAt reference h ≠ sim.stateRootAt node h with
  | some h => some (.stateRoot node h (sim.stateRootAt reference h) (sim.stateRootAt node h))
  | none =>
    if sim.executedHeight reference ≠ sim.executedHeight node then
      some (.height node (sim.executedHeight node) (sim.executedHeight reference))
    else none

/-- Checks every node agrees on the state root at every chain height they have both executed. -/
def stateDivergence : Option (Disagreement config.nodes) :=
  ((List.finRange config.nodes).drop 1).findSome? sim.stateDisagreement

/-- Where a node's DAG differs from that of the reference. -/
def disagreement (reference node : Fin config.nodes) : Option (Disagreement config.nodes) :=
  let referenceDag := (sim.nodes reference).sync.dag
  let referenceBlocks := sim.blockSet reference
  let referenceTip := referenceDag.virtualSelectedParent
  let blocks := sim.blockSet node
  let dag := (sim.nodes node).sync.dag
  let tip := dag.virtualSelectedParent
  if blocks ≠ referenceBlocks then
    some (.blockSet node (referenceBlocks \ blocks).card (blocks \ referenceBlocks).card
      referenceBlocks.card blocks.card)
  else if tip ≠ referenceTip then some (.chainTip node tip referenceTip)
  else if dag.selectedParentChain tip ≠ referenceDag.selectedParentChain referenceTip then
    some (.chain node)
  else none

/-- Checks every node agrees on the DAG and on the chain it selects. The first node is asked before
any other, so there has to be one. -/
def divergence (hnodes : 0 < config.nodes) : Option (Disagreement config.nodes) :=
  ((List.finRange config.nodes).drop 1).findSome? (sim.disagreement ⟨0, hnodes⟩)

end Code

/-! ### Nothing is left to be noted -/

variable {sim sim' : Simulation config}

/-- All that has been accepted has been noted. -/
def AllNoted (sim : Simulation config) : Prop := ∀ i, (sim.nodes i).sync.accepted = []

section Noted

theorem accepted_setSync {node : Fin config.nodes} {S : DagSync}
    (h : S.accepted = (sim.nodes node).sync.accepted) (i : Fin config.nodes) :
    ((sim.setSync node S).nodes i).sync.accepted = (sim.nodes i).sync.accepted := by
  show (Function.update sim.nodes node { sim.nodes node with sync := S } i).sync.accepted = _
  rw [Function.update_apply]
  split
  · next hi => rw [hi, h]
  · rfl

theorem accepted_close (sim : Simulation config) (node : Fin config.nodes) (peer : PeerId)
    (i : Fin config.nodes) :
    ((sim.setSync node ((sim.nodes node).sync.onDisconnect peer)).nodes i).sync.accepted
      = (sim.nodes i).sync.accepted :=
  accepted_setSync (S := (sim.nodes node).sync.onDisconnect peer) rfl i

theorem accepted_dispatch (node : Fin config.nodes) (actions : List Action) (i : Fin config.nodes) :
    ((sim.dispatch node actions).nodes i).sync.accepted = (sim.nodes i).sync.accepted := by
  refine dispatch_induct (P := fun sim' => (sim'.nodes i).sync.accepted
    = (sim.nodes i).sync.accepted) ?_ ?_ rfl
  · -- the rng alone moves when the message is lost, the rng and the queue when it is sent
    intro sim' receiver message _ h
    obtain ⟨rng, hlost⟩ | ⟨rng, latency, -, hsend⟩ := sim'.send_cases node receiver message
    · rw [hlost]
      exact h
    · rw [hsend]
      exact h
  · -- a disconnect closes the connection at both ends, or at one when the peer is unknown
    intro sim' peer reason _ h
    unfold disconnect
    dsimp only
    split
    · exact (accepted_close sim' node peer i).trans h
    · exact ((accepted_close _ _ _ i).trans (accepted_close sim' node peer i)).trans h

variable [HeaderHash]

/-- A call to one node changes what that node has accepted. -/
theorem accepted_act_of_ne {node i : Fin config.nodes} (hne : i ≠ node) (call : SyncCall) :
    ((sim.act node call).nodes i).sync.accepted = (sim.nodes i).sync.accepted := by
  refine (accepted_dispatch node _ i).trans ?_
  show (Function.update sim.nodes node _ i).sync.accepted = _
  rw [Function.update_of_ne hne]

/-- Or it accepts nothing. -/
theorem AllNoted.act (h : sim.AllNoted) (node : Fin config.nodes) (call : SyncCall)
    (hcall : ((sim.nodes node).sync.step call).accepted = (sim.nodes node).sync.accepted) :
    (sim.act node call).AllNoted :=
  fun i => ((accepted_dispatch node _ i).trans (accepted_setSync hcall i)).trans (h i)

variable [TxCodec] [Evm] [Trie] [FeeRule]

/-- What a call has accepted is noted after it. -/
theorem AllNoted.actNote {node : Fin config.nodes} {call : SyncCall} (h : sim.AllNoted)
    (hok : (sim.act node call).noteChanges node = .ok sim') : sim'.AllNoted := by
  intro i
  rw [(noteChanges_ok hok).2.2, Function.update_apply]
  split
  · show ((sim.act node call).nodes node).toReplica.noteChanges.1.sync.accepted = []
    rw [Replica.sync_noteChanges]
  · next hne => exact (accepted_act_of_ne hne call).trans (h i)

variable [CodeHash] [Signer] {pow : PowHash}

theorem lasts_allNoted : Lasts pow fun (sim : Simulation config) _ => sim.AllNoted where
  start := new_induct (fun _ _ _ => rfl)
    (fun _ i j h => h.act i (.connect j.val) rfl) fun _ _ h => h
  deliver := by
    intro sim sim' log event queue receiver sender message _ h _ _ hok
    have hdue : (sim.due event queue).receiving.AllNoted := h
    exact hdue.actNote hok
  tick := by
    intro sim log event queue node _ h _ _
    have hdue : (sim.due event queue).AllNoted := h
    have hacted := hdue.act node (.tick event.time) (DagSync.samePool_onTick event.time).accepted
    unfold AllNoted
    rw [nodes_scheduleTick]
    exact hacted
  idle _ h _ _ := h
  mine := by
    intro sim sim' log event queue node header _ h _ _ _ hok
    have hmade := makeTransactions_onlyNonces node config.txsPerBlock (sim.due event queue)
    have hmined : ((sim.due event queue).withMined node).AllNoted := fun i =>
      (congrArg (·.sync.accepted) (hmade.replica i)).trans (h i)
    have hnoted : sim'.AllNoted := hmined.actNote hok
    exact hnoted
  suspend _ h := h
  wait h _ _ := h

/-- **In every state that is reached all that has been accepted has been noted.** -/
theorem Reached.allNoted {log : List (MinedBlock config.nodes)} (h : Reached pow sim log) :
    sim.AllNoted :=
  h.rule lasts_allNoted

end Noted

/-! ### The genesis state -/

section Genesis

variable [CodeHash] [Signer] {codeOf : B256 → Bytecode}

omit [CodeHash] in
/-- Every account of the allocation is a funded one. -/
theorem lookup_genesisAlloc {a : Address} {account : GenesisAccount}
    (h : (genesisAlloc config).lookup a = some account) : account = fundedAccount := by
  unfold genesisAlloc at h
  -- the fold over the wallets, for any allocation that funds no one else
  have hfold : ∀ (l : List ℕ) (alloc : Map Address GenesisAccount),
      (∀ a account, alloc.lookup a = some account → account = fundedAccount) →
      ∀ a account, (l.foldl (fun alloc index => alloc.insert
        (Wallet.fromIndex (UInt64.ofNat index)).address fundedAccount) alloc).lookup a
          = some account → account = fundedAccount := by
    intro l
    induction l with
    | nil => exact fun _ h => h
    | cons index l ih =>
      refine fun alloc h => ih _ fun a account hl => ?_
      rw [Maps.lookup_insert] at hl
      split at hl
      · exact (Option.some.inj hl).symm
      · exact h a account hl
  exact hfold _ ∅ (fun a account hl => nomatch hl) a account h

/-- No account has code. -/
theorem wellCoded_genesis (hempty : codeOf keccak256Empty = []) {genesisState : WorldState}
    (h : WorldState.loadGenesis (genesisAlloc config) = .ok genesisState) :
    WellCoded codeOf genesisState := by
  have hcode : genesisState.code = ∅ := by
    obtain rfl := Except.ok.inj h
    -- no genesis account has code, so that `allocate` leaves the code store alone
    have hfold : ∀ (l : List (Address × GenesisAccount)) (s : WorldState),
        (∀ entry ∈ l, entry.2 = fundedAccount) →
        (l.foldl WorldState.allocate s).code = s.code := by
      intro l
      induction l with
      | nil => exact fun _ _ => rfl
      | cons entry l ih =>
        intro s hl
        refine (ih _ fun entry hmem => hl entry (List.mem_cons_of_mem _ hmem)).trans ?_
        unfold WorldState.allocate
        rw [hl entry List.mem_cons_self]
        rfl
    refine hfold _ _ fun entry hmem => ?_
    exact lookup_genesisAlloc (Maps.mem_toList.mp hmem)
  refine ⟨fun hash bytes hl => ?_, fun a account hl hne => ?_⟩
  · rw [hcode] at hl
    exact nomatch hl
  · -- the account has the code hash of the empty code
    rw [WorldState.account_loadGenesis h] at hl
    obtain ⟨entry, hentry, rfl⟩ := Option.map_eq_some_iff.mp hl
    rw [lookup_genesisAlloc hentry] at hne
    exact absurd hempty hne

end Genesis

/-! ### The blocks of a node -/

/-- **Walking back from the tips** one sees all that is stored. -/
theorem blockSet_eq [HeaderHash] {node : Fin config.nodes}
    (hvalid : (sim.nodes node).sync.dag.Valid)
    (hgenesis : ∀ header, (sim.nodes node).sync.dag.headers.lookup
      (sim.nodes node).sync.dag.genesis = some header → header.parents = []) :
    sim.blockSet node = (sim.nodes node).sync.dag.headers.keys := by
  unfold blockSet
  generalize (sim.nodes node).sync.dag = D at hvalid hgenesis
  dsimp only
  -- what a block's parent list gives to the search is an edge of the DAG
  have hnext : ∀ {x y header}, D.headers.lookup x = some header → y ∈ header.parents →
      D.Edge y x := by
    intro x y header hl hy
    refine ⟨header, hl, ?_, hy⟩
    rintro rfl
    rw [hgenesis header hl] at hy
    exact absurd hy List.not_mem_nil
  refine Finset.ext fun b => (Worklist.mem_explore_iff (U := D.headers.keys) ?_ ?_ le_rfl).trans ?_
  · intro x hx y hy
    obtain ⟨header, hl⟩ := Maps.mem_iff_exists_lookup.mp (Finmap.mem_keys.mp hx)
    rw [hl, Option.elim_some, List.mem_reverse] at hy
    exact Finmap.mem_keys.mpr (hvalid.parent_mem (hnext hl hy))
  · intro t ht
    exact Finmap.mem_keys.mpr (hvalid.mem_tips.mp (mem_sortedTips.mp (List.mem_reverse.mp ht))).1
  · refine ⟨?_, fun hb => ?_⟩
    · -- along the path from a tip, every block is in the DAG
      rintro ⟨t, ht, hreach⟩
      have htip := (hvalid.mem_tips.mp (mem_sortedTips.mp (List.mem_reverse.mp ht))).1
      induction hreach with
      | refl => exact Finmap.mem_keys.mpr htip
      | tail _ hstep ih =>
        obtain ⟨header, hl⟩ := Maps.mem_iff_exists_lookup.mp (Finmap.mem_keys.mp ih)
        rw [hl, Option.elim_some, List.mem_reverse] at hstep
        exact Finmap.mem_keys.mpr (hvalid.parent_mem (hnext hl hstep))
    · -- every block lies below some tip, and the search follows the path back
      obtain ⟨t, ht, hanc⟩ := hvalid.exists_tip (Finmap.mem_keys.mp hb)
      refine ⟨t, List.mem_reverse.mpr (mem_sortedTips.mpr ht), ?_⟩
      refine Relation.ReflTransGen.mono ?_ _ _ (Relation.ReflTransGen.swap _ _ hanc)
      rintro y x ⟨header, hl, -, hx⟩
      show x ∈ (D.headers.lookup y).elim [] _
      rw [hl, Option.elim_some, List.mem_reverse]
      exact hx

/-! ### What is guaranteed -/

section Guarantees

variable [HeaderHash] [TxCodec] [Evm] [Trie] [FeeRule] [CodeHash] [Signer] {pow : PowHash}
  {codeOf : B256 → Bytecode} {log : List (MinedBlock config.nodes)}

omit [CodeHash] [Signer] in
/-- **What holds of every network holds of the nodes of a simulation**, and nothing has been pruned
as long as no more blocks have been mined than undo records are kept. -/
theorem CoveredFrom.inv (hcode : CodeByHash codeOf) {genesisState : WorldState}
    (hcoded : WellCoded codeOf genesisState)
    (h : CoveredFrom (setup pow config genesisState).start sim (log.map MinedBlock.block))
    (hnames : Names (· ∈ issuedBlocks log)) (hshort : log.length < maxReorgWalk) :
    ∃ N, Covers N sim ∧ N.Inv (setup pow config genesisState) (· ∈ issuedBlocks log)
        (issuedBodies (issuedBlocks log)) codeOf ∧
      (log.length ≤ testnet1bps.pruningWindowBlocks → N.Unpruned) := by
  obtain ⟨events, hlegal, hmined, hcovers⟩ := h
  -- the issued blocks are those the network's events mined
  have hissued : (setup pow config genesisState).issued events = issuedBlocks log :=
    congrArg (List.cons _) hmined
  have hlength : (Network.mined events).length = log.length := by
    rw [hmined, List.length_map]
  rw [← hissued] at hnames ⊢
  rw [← hlength] at hshort ⊢
  -- the two halves of a legal event, each over the whole run
  have hdelivers : Each Network.step Network.Delivers (setup pow config genesisState).start events :=
    hlegal.imp (I := fun _ => True) (fun _ _ _ => trivial) (fun _ _ _ _ hgood => hgood.1) trivial
  have hsucceeds : Each Network.step Network.Succeeds (setup pow config genesisState).start events :=
    hlegal.imp (I := fun _ => True) (fun _ _ _ => trivial) (fun _ _ _ _ hgood => hgood.2) trivial
  refine ⟨_, hcovers, ?_, fun hwindow => ?_⟩
  · exact (Network.inv_throughout hcode hcoded hnames hshort hdelivers hsucceeds).last
  · exact (Network.unpruned_throughout hcode hcoded hnames hshort hwindow hdelivers).last.2

/-- Where a node of a simulation is. -/
theorem Reached.kept (hcode : CodeByHash codeOf) (h : Reached pow sim log) (hapart : sim.Apart log)
    (hshort : sim.mined < maxReorgWalk) : ∃ start, Start codeOf start ∧
      (∀ i, (sim.nodes i).toReplica.Kept simGenesis (· ∈ issuedBlocks log)
        (issuedBodies (issuedBlocks log)) codeOf start ∧
        (sim.nodes i).sync.dag.genesis = simGenesis.hash ∧ (sim.nodes i).sync.dag.k = config.k ∧
        (sim.nodes i).sync.dag.mergesetSizeLimit = config.mergesetLimit ∧
        (sim.nodes i).executor.tip = (sim.nodes i).sync.dag.virtualSelectedParent) ∧
      ∀ i j, NoCollision (sim.nodes i).sync.dag (sim.nodes j).sync.dag := by
  obtain ⟨genesisState, hgenesis, hcovered⟩ := h.covered
  have hcoded := wellCoded_genesis hcode.empty hgenesis
  have hnames := h.told.names hapart
  obtain ⟨N, hcovers, hinv, -⟩ := hcovered.inv hcode hcoded hnames (h.owned.mined ▸ hshort)
  refine ⟨(setup pow config genesisState).executor, start_new simGenesis.hash hcoded, fun i => ?_,
    fun i j => ?_⟩
  · -- the invariant of the network, read off at node `i`
    have hone := hinv.kept i
    have hk := hinv.k i
    have hlimit := hinv.limit i
    rw [hcovers.replicas i] at hone hk hlimit
    have hstart := (bookkeeping_new testnet1bps genesisState simGenesis.hash).tip
    exact ⟨hone, Option.some.inj (hone.node.genesis_at.symm.trans hstart), hk, hlimit,
      hone.settled (h.allNoted i)⟩
  · have hno := hinv.noCollision hnames i j
    rw [hcovers.replicas i, hcovers.replicas j] at hno
    exact hno

/-- Nodes that hold the same blocks have all in common that the checks look at. -/
theorem Reached.same_of_headers (hcode : CodeByHash codeOf) (h : Reached pow sim log)
    (hapart : sim.Apart log) (hshort : sim.mined < maxReorgWalk) {i j : Fin config.nodes}
    (hheaders : (sim.nodes i).sync.dag.headers = (sim.nodes j).sync.dag.headers) :
    (sim.nodes i).sync.dag.virtualSelectedParent = (sim.nodes j).sync.dag.virtualSelectedParent ∧
      (∀ b, (sim.nodes i).sync.dag.selectedParentChain b
        = (sim.nodes j).sync.dag.selectedParentChain b) ∧
      (sim.nodes i).executor.results = (sim.nodes j).executor.results ∧
      (sim.nodes i).executor.height = (sim.nodes j).executor.height := by
  obtain ⟨start, hstart, hall, hno⟩ := h.kept hcode hapart hshort
  obtain ⟨hkept, hgenesis, hk, hlimit, htip⟩ := hall i
  obtain ⟨hkept', hgenesis', hk', hlimit', htip'⟩ := hall j
  -- one DAG, so one selected parent and one chain
  obtain ⟨-, -, hvsp, hchains⟩ := hkept.node.valid.eq_of_headers hkept'.node.valid
    (hk.trans hk'.symm) (hgenesis.trans hgenesis'.symm) (hlimit.trans hlimit'.symm) hheaders
  have hsame : (sim.nodes i).executor.tip = (sim.nodes j).executor.tip :=
    (htip.trans hvsp).trans htip'.symm
  refine ⟨hvsp, hchains, ?_, ?_⟩
  · exact (hkept.node.same_tip hkept'.node (hk.trans hk'.symm) (hlimit.trans hlimit'.symm)
      (hno i j) hsame).1
  · -- each height is the length of the chain to the tip, less one
    have hheight := (hkept.node.onSelectedChain hcode hstart).height
    have hheight' := (hkept'.node.onSelectedChain hcode hstart).height
    refine Nat.succ_injective ?_
    calc (sim.nodes i).executor.height + 1
        = ((sim.nodes i).sync.dag.selectedParentChain (sim.nodes i).executor.tip).length := hheight
      _ = ((sim.nodes j).sync.dag.selectedParentChain (sim.nodes j).executor.tip).length := by
        rw [hsame]
        exact congrArg List.length (hchains _)
      _ = (sim.nodes j).executor.height + 1 := hheight'.symm

/-- The walk of `block_set` finds the blocks of a node. -/
theorem Reached.blockSet_eq (hcode : CodeByHash codeOf) (h : Reached pow sim log)
    (hapart : sim.Apart log) (hshort : sim.mined < maxReorgWalk) (i : Fin config.nodes) :
    sim.blockSet i = (sim.nodes i).sync.dag.headers.keys := by
  obtain ⟨start, hstart, hall, hno⟩ := h.kept hcode hapart hshort
  obtain ⟨hkept, hgenesis, -⟩ := hall i
  refine Simulation.blockSet_eq hkept.node.valid fun header hl => ?_
  -- what is stored as genesis has been issued, and genesis only goes by its hash
  have hnames := h.told.names hapart
  have hsame := hnames _ ⟨simGenesis, []⟩ (hkept.genuine.dag hl) List.mem_cons_self
    ((hkept.genuine.dag_key hl).trans hgenesis)
  exact (congrArg (·.header.parents) hsame).trans rfl

/-- Two nodes hold the same blocks if they hold blocks of the same hashes. -/
theorem Reached.disagreement_eq_none_iff (hcode : CodeByHash codeOf) (h : Reached pow sim log)
    (hapart : sim.Apart log) (hshort : sim.mined < maxReorgWalk) (r i : Fin config.nodes) :
    sim.disagreement r i = none ↔
      (sim.nodes i).sync.dag.headers = (sim.nodes r).sync.dag.headers := by
  obtain ⟨start, hstart, hall, hno⟩ := h.kept hcode hapart hshort
  unfold disagreement
  dsimp only
  rw [h.blockSet_eq hcode hapart hshort, h.blockSet_eq hcode hapart hshort]
  constructor
  · -- the first comparison found the same block sets
    intro hnone
    split at hnone
    · cases hnone
    · next hkeys =>
      refine Finmap.ext_lookup fun b => ?_
      have hmem : b ∈ (sim.nodes i).sync.dag.headers ↔
          b ∈ (sim.nodes r).sync.dag.headers := by
        rw [← Finmap.mem_keys, ← Finmap.mem_keys, not_not.mp hkeys]
      cases hl : (sim.nodes i).sync.dag.headers.lookup b with
      -- neither store has the block
      | none =>
        exact (Finmap.lookup_eq_none.mpr (mt hmem.mpr (Finmap.lookup_eq_none.mp hl))).symm
      | some header =>
        -- both have it, and headers of one hash are equal
        obtain ⟨header', hl'⟩ := Maps.mem_iff_exists_lookup.mp
          (hmem.mp (Maps.mem_of_lookup hl))
        rw [hl', hno i r b header header' hl hl']
  · -- equal stores pass each of the three comparisons
    intro hheaders
    obtain ⟨hvsp, hchains, -⟩ := h.same_of_headers hcode hapart hshort hheaders
    rw [if_neg (not_not.mpr (congrArg Finmap.keys hheaders)), if_neg (not_not.mpr hvsp), hvsp,
      if_neg (not_not.mpr (hchains _))]

/-- Nodes with the same chain block at a height have recorded the same state root there. -/
theorem Reached.stateRootAt_eq (hcode : CodeByHash codeOf) (h : Reached pow sim log)
    (hapart : sim.Apart log) (hshort : sim.mined < maxReorgWalk) {i j : Fin config.nodes}
    {height : ℕ} (hi : height ≤ sim.executedHeight i) (hj : height ≤ sim.executedHeight j)
    (hchain : ((sim.nodes i).sync.dag.selectedParentChain
        (sim.nodes i).sync.dag.virtualSelectedParent).reverse[height]?
      = ((sim.nodes j).sync.dag.selectedParentChain
        (sim.nodes j).sync.dag.virtualSelectedParent).reverse[height]?) :
    sim.stateRootAt i height = sim.stateRootAt j height := by
  obtain ⟨start, hstart, hall, hno⟩ := h.kept hcode hapart hshort
  obtain ⟨hkept, hgenesis, hk, hlimit, htip⟩ := hall i
  obtain ⟨hkept', hgenesis', hk', hlimit', htip'⟩ := hall j
  have hon := hkept.node.onSelectedChain hcode hstart
  -- the height's block is the chain's, at both nodes
  have hat := hon.hash_at height hi
  have hat' := (hkept'.node.onSelectedChain hcode hstart).hash_at height hj
  change (sim.nodes i).executor.hashAt height = ((sim.nodes i).sync.dag.selectedParentChain
    (sim.nodes i).executor.tip).reverse[height]? at hat
  change (sim.nodes j).executor.hashAt height = ((sim.nodes j).sync.dag.selectedParentChain
    (sim.nodes j).executor.tip).reverse[height]? at hat'
  rw [← htip, ← htip'] at hchain
  have hlt : height < ((sim.nodes i).sync.dag.selectedParentChain
      (sim.nodes i).executor.tip).reverse.length := by
    rw [List.length_reverse]
    exact Nat.lt_of_lt_of_eq (Nat.lt_succ_of_le hi) hon.height
  -- so both name the same block, whose outcome is determined
  have hblock := hat.trans (List.getElem?_eq_getElem hlt)
  have hblock' := (hat'.trans hchain.symm).trans (List.getElem?_eq_getElem hlt)
  have hsame := hkept.node.outcome_eq hcode hstart hkept'.node (hk.trans hk'.symm)
    (hlimit.trans hlimit'.symm) (hno i j) hblock hblock'
  exact congrArg (Option.map ChainBlockOutcome.stateRoot) hsame

omit [HeaderHash] [TxCodec] [Evm] [Trie] [FeeRule] [CodeHash] [Signer] in
/-- What holds of the first node and of all others. -/
theorem forall_mem_drop_finRange {n : ℕ} {P : Fin n → Prop} (hfirst : ∀ i : Fin n, i.val = 0 → P i) :
    (∀ i ∈ (List.finRange n).drop 1, P i) ↔ ∀ i, P i := by
  refine ⟨fun h i => ?_, fun h i _ => h i⟩
  cases n with
  | zero => exact i.elim0
  | succ n =>
    by_cases hi : i.val = 0
    · exact hfirst i hi
    · refine h i ?_
      rw [List.finRange_succ, List.drop_one, List.tail_cons]
      exact List.mem_map.mpr ⟨i.pred (fun h => hi (congrArg Fin.val h)), List.mem_finRange _,
        Fin.succ_pred _ _⟩

/-- **Holding the same blocks is all that convergence takes.** In every state that is reached, the
check of the DAG passes exactly when all nodes hold the same blocks, and the check of the states
passes with it. A state root on which two nodes differ is always that of a height at which their
selected chains differ. -/
theorem divergence_decides (hcode : CodeByHash codeOf) (h : Reached pow sim log)
    (hnodes : 0 < config.nodes) (hapart : sim.Apart log) (hshort : sim.mined < maxReorgWalk) :
    (sim.divergence hnodes = none ↔
      ∀ i j, (sim.nodes i).sync.dag.headers = (sim.nodes j).sync.dag.headers) ∧
    (sim.divergence hnodes = none → sim.stateDivergence = none) ∧
    ∀ node height reference own,
      sim.stateDivergence = some (.stateRoot node height reference own) →
      ((sim.nodes (first node)).sync.dag.selectedParentChain
          (sim.nodes (first node)).sync.dag.virtualSelectedParent).reverse[height]?
        ≠ ((sim.nodes node).sync.dag.selectedParentChain
          (sim.nodes node).sync.dag.virtualSelectedParent).reverse[height]? := by
  have hiff : sim.divergence hnodes = none ↔
      ∀ i j, (sim.nodes i).sync.dag.headers = (sim.nodes j).sync.dag.headers := by
    unfold divergence
    rw [List.findSome?_eq_none_iff]
    simp only [h.disagreement_eq_none_iff hcode hapart hshort]
    rw [forall_mem_drop_finRange fun i hi => by rw [show ⟨0, hnodes⟩ = i from Fin.ext hi.symm]]
    refine ⟨fun hfirst i j => (hfirst i).trans (hfirst j).symm, fun hall i => hall i _⟩
  -- no divergence: the results and heights agree, and with them every root
  refine ⟨hiff, fun hnone => ?_, ?_⟩
  · unfold stateDivergence
    refine List.findSome?_eq_none_iff.mpr fun i _ => ?_
    obtain ⟨-, -, hresults, hheight⟩ :=
      h.same_of_headers hcode hapart hshort (hiff.mp hnone (first i) i)
    have hroots : ∀ height, sim.stateRootAt (first i) height = sim.stateRootAt i height :=
      fun height => by
        unfold stateRootAt
        rw [hresults]
    unfold stateDisagreement
    dsimp only
    have hfind : (List.range (min (sim.executedHeight (first i)) (sim.executedHeight i) + 1)).find?
        (fun height => sim.stateRootAt (first i) height ≠ sim.stateRootAt i height) = none :=
      List.find?_eq_none.mpr fun height _ => by simp [hroots height]
    rw [hfind]
    exact if_neg (not_not.mpr hheight)
  · -- a root that differs at a height both reached: the blocks there cannot be the same
    intro node height reference own hsome hchain
    obtain ⟨other, -, hother⟩ := List.exists_of_findSome?_eq_some hsome
    unfold stateDisagreement at hother
    dsimp only at hother
    split at hother
    · next found hfind =>
      obtain ⟨rfl, rfl, -, -⟩ := Disagreement.stateRoot.inj (Option.some.inj hother)
      have hdiffer := List.find?_some hfind
      have hle := List.mem_range.mp (List.mem_of_find?_eq_some hfind)
      refine absurd ?_ (of_decide_eq_true hdiffer)
      exact h.stateRootAt_eq hcode hapart hshort (by omega) (by omega) hchain
    · -- the other disagreement is about heights
      split at hother <;> cases hother

/-! ### No event fails -/

/-- A node can follow its chain when nothing has been pruned. -/
theorem Covered.noteChanges_isOk (hcode : CodeByHash codeOf) (h : Covered pow sim log)
    (hnames : Names (· ∈ issuedBlocks log)) (hshort : log.length ≤ testnet1bps.pruningWindowBlocks)
    (node : Fin config.nodes) : ∃ sim', sim.noteChanges node = .ok sim' := by
  obtain ⟨genesisState, hgenesis, hcovered⟩ := h
  have hcoded := wellCoded_genesis hcode.empty hgenesis
  have hreach : log.length < maxReorgWalk := hshort.trans_lt (by decide)
  obtain ⟨N, hcovers, hinv, hunpruned⟩ := hcovered.inv hcode hcoded hnames hreach
  have hlength : (issuedBlocks log).length = log.length + 1 := by
    rw [issuedBlocks, List.length_cons, List.length_map]
  have hstart : Start codeOf (setup pow config genesisState).executor :=
    start_new simGenesis.hash hcoded
  -- the note succeeds in the network that covers the simulation
  have hsucceeds : N.Succeeds (.note node) :=
    (hinv.unpruned hcode hstart (hlength ▸ hreach) (hlength ▸ Nat.succ_le_succ hshort)
      (hunpruned hshort) (.note node)).1
  refine Simulation.noteChanges_isOk ?_
  rw [← hcovers.replicas node]
  exact hsucceeds

/-- **No event of a run fails** as long as no more blocks have been mined than undo records are
kept, whatever is lost or delayed and however often chains change. -/
theorem simulation_never_fails (hcode : CodeByHash codeOf) (h : Reached pow sim log)
    {event : Appointment (EventKind config.nodes)} {queue : Agenda (EventKind config.nodes)}
    (hnext : sim.queue.next = some (event, queue))
    (hapart : (sim.due event queue).Apart (log ++ minedNow pow (sim.due event queue) event.what))
    (hshort : sim.mined < testnet1bps.pruningWindowBlocks) :
    ∃ sim', (sim.due event queue).handle pow event.what = .ok sim' := by
  have hnames := (h.told_next hnext).names hapart
  have hlength := h.owned.mined
  cases hwhat : event.what with
  -- a tick notes no change
  | tick node => exact ⟨_, rfl⟩
  | deliver receiver sender message =>
    -- delivery: the log is not longer, and the message's block is noted
    rw [hwhat] at hnames
    obtain ⟨sim', hok⟩ := (h.covered.receive hnext hwhat).noteChanges_isOk hcode
      (List.append_nil log ▸ hnames) (hlength ▸ hshort.le) receiver
    exact ⟨sim', hok⟩
  | mine node =>
    rw [hwhat] at hnames
    unfold handle
    dsimp only
    split
    · next henabled =>
      cases hheader : (sim.due event queue).minedHeader pow node with
      -- mining: no header found, nothing to note
      | none =>
        unfold mineOne
        rw [hheader]
        exact ⟨_, rfl⟩
      | some header =>
        -- a header was found: the log grows by its block
        have hmined : minedNow pow (sim.due event queue) (.mine node)
            = [⟨node, event.time, (sim.due event queue).minedBlock node header⟩] := by
          unfold minedNow
          dsimp only
          rw [if_pos henabled, hheader]
          rfl
        rw [hmined] at hnames
        obtain ⟨sim', hok⟩ := (h.covered.mine hnext node header).noteChanges_isOk hcode
          hnames (by
            rw [List.length_append, ← hlength]
            exact hshort) node
        unfold mineOne
        rw [hheader]
        exact ⟨_, congrArg (Except.map _) hok⟩
    · -- mining is disabled
      exact ⟨_, rfl⟩

end Guarantees

end Simulation

/-! ### Two nodes -/

namespace TwoNodes

open Simulation Chainname.Wallet WorldState.EmptyAccount
open Sample (easyPow)

theorem ran_spec : ∃ sim log, ran = some sim ∧ Reached easyPow sim log := by
  have hsome : ran.isSome = true := by decide +kernel
  obtain ⟨sim, hran⟩ := Option.isSome_iff_exists.mp hsome
  have hrun := hran
  unfold ran at hrun
  split at hrun
  · cases hrun
  · next start hstart =>
    obtain ⟨result, hresult, hok⟩ := Option.bind_eq_some_iff.mp hrun
    cases result with
    | error e => cases hok
    | ok sim' =>
      obtain rfl := Option.some.inj hok
      obtain ⟨log, hreached⟩ := (Reached.start hstart).runFor hresult
      exact ⟨sim', _, hran, hreached⟩

/-- A stamp tells time and miner. -/
theorem stamp_inj {a b : Header} (h : a.hash = b.hash) :
    a.miner = b.miner ∧ a.timestampMs = b.timestampMs := by
  have hval : ∀ header : Header, header.hash.val
      = header.timestampMs.toNat * 2 ^ 160 + header.miner.val := by
    intro header
    have := header.timestampMs.toNat_lt
    have := header.miner.isLt
    exact Nat.mod_eq_of_lt (by omega)
  have hsame := congrArg Fin.val h
  rw [hval, hval] at hsame
  have := a.miner.isLt
  have := b.miner.isLt
  exact ⟨Fin.ext (by omega), UInt64.toNat_inj.mp (by omega)⟩

/-- So the blocks of a run are told apart. -/
theorem apart_of_told {sim : Simulation twoNodes} {log : List (MinedBlock twoNodes.nodes)}
    (h : Told sim.nowMs log) (htime : sim.nowMs < 2 ^ 64) : sim.Apart log := by
  -- genesis has a miner of its own
  have hgenesis : ∀ b ∈ log, b.block.header.miner ≠ simGenesis.miner := by
    intro b hb hminer
    rw [(h.header b hb).2.1] at hminer
    exact absurd (repeatByte_injective (by omega) (by decide) (hminer.trans (by decide +kernel)))
      (Nat.succ_ne_zero _)
  refine ⟨by decide, htime, fun x hx y hy hhash => ?_⟩
  obtain ⟨hminer, hstamp⟩ := stamp_inj hhash
  -- a hash tells the miner and the stamp of its block
  obtain rfl | hx := List.mem_cons.mp hx
  · obtain rfl | hy := List.mem_cons.mp hy
    · rfl
    · obtain ⟨b, hb, rfl⟩ := List.mem_map.mp hy
      exact absurd hminer.symm (hgenesis b hb)
  · obtain ⟨a, ha, rfl⟩ := List.mem_map.mp hx
    obtain rfl | hy := List.mem_cons.mp hy
    · exact absurd hminer (hgenesis a ha)
    · obtain ⟨b, hb, rfl⟩ := List.mem_map.mp hy
      -- one miner, one stamp: one entry of the log
      rw [h.header_injective (by decide) htime ha hb hminer hstamp]

/-- The nodes have mined four blocks, and agree. -/
theorem divergence_decides_twoNodes : ∃ sim, ran = some sim ∧ sim.mined = 4 ∧
    sim.stateDivergence = none := by
  obtain ⟨sim, log, hran, hreached⟩ := ran_spec
  have hall : (ran.elim false fun sim => decide (sim.mined = 4 ∧ sim.nowMs < 2 ^ 64 ∧
      sim.divergence (by decide) = none)) = true := by decide +kernel
  rw [hran] at hall
  obtain ⟨hmined, htime, hagree⟩ := of_decide_eq_true hall
  refine ⟨sim, hran, hmined, ?_⟩
  refine (divergence_decides wallet_codeByHash hreached (by decide) (apart_of_told hreached.told htime) ?_).2.1
    hagree
  rw [hmined]
  decide

/-- The next event does not fail. -/
theorem simulation_never_fails_twoNodes : ∃ sim event queue sim', ran = some sim ∧
    sim.queue.next = some (event, queue) ∧
    (sim.due event queue).handle easyPow event.what = .ok sim' := by
  obtain ⟨sim, log, hran, hreached⟩ := ran_spec
  -- the run mines four blocks and has an event due within the clock's range
  have hall : (ran.elim false fun sim => decide (sim.mined = 4 ∧
      (sim.queue.next.elim false fun next => decide (next.1.time < 2 ^ 64)) = true)) = true := by decide +kernel
  rw [hran] at hall
  obtain ⟨hmined, htime⟩ := of_decide_eq_true hall
  cases hnext : sim.queue.next with
  | none =>
    rw [hnext] at htime
    exact absurd htime Bool.false_ne_true
  | some next =>
    obtain ⟨event, queue⟩ := next
    rw [hnext] at htime
    obtain ⟨sim', hok⟩ := simulation_never_fails wallet_codeByHash hreached hnext
      (apart_of_told (hreached.told_next hnext) (of_decide_eq_true htime)) (by rw [hmined]; decide)
    exact ⟨sim, event, queue, sim', hran, hnext, hok⟩

end TwoNodes

end Chainname.Testkit
