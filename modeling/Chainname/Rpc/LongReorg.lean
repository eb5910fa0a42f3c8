import Chainname.Ghostdag.Ladder
import Chainname.Rpc.TxIndex

/-!
# A reorganisation past the guard of the walk

When the chains before and after a reorganisation differ in one block more than the walk of
`compute_reorg` may step over, the oldest block of the old chain is not undone, and stays below
the new chain. A branch that grows on it executes it again, on top of itself, and when this
branch is undone the index drops all that points to the block: what its first execution left
among the results is no longer indexed.

The blocks are the rungs of two ladders, one block on the other, each of half the guard's length,
so the run is followed by lemmas on a call, a rung and a ladder.
-/

namespace Chainname

namespace NodeState

section Calls

variable [HeaderHash] [TxCodec] [Evm] [Trie] [FeeRule] {known : Set ChainTx} {n : NodeState}
  {stack top rest : List ChainBlockOutcome}

/-! ### A call -/

/-- The results of the node are those of a stack, and nothing has been pruned. -/
structure StandsOn (known : Set ChainTx) (n : NodeState) (stack : List ChainBlockOutcome) :
    Prop where
  valid : n.dag.Valid
  tip_mem : n.executor.tip ∈ n.dag.headers
  parallel : n.executor.parallel = false
  bodies : ∀ source, ∀ tx ∈ n.bodies.get source, tx ∈ known
  stands : n.executor.Stands (ChainExecutor.Ledger n.executor.params known) stack
  unpruned : n.executor.Unpruned

omit [HeaderHash] [TxCodec] [Evm] [Trie] [FeeRule] in
/-- An empty body adds no transaction. -/
theorem bodies_insert_nil {bodies : BodyStore}
    (h : ∀ source, ∀ tx ∈ bodies.get source, tx ∈ known) (hash : BlockHash) :
    ∀ source, ∀ tx ∈ BodyStore.get (bodies.insert hash []) source, tx ∈ known := by
  intro source tx htx
  exact h source tx ((BodyStore.mem_get_insert htx).resolve_left List.not_mem_nil)

/-- A block that does not become the selected tip leaves the executor alone. -/
theorem StandsOn.addBlock_beside (h : StandsOn known n stack) {header : Header} {p : BlockHash}
    (hparents : header.parents = [p]) (hp : p ∈ n.dag.headers) (hnew : header.hash ∉ n.dag.headers)
    (hvsp : (n.dag.addBlock header).1.virtualSelectedParent = n.executor.tip) :
    n.Succeeds (.addBlock header []) ∧ StandsOn known (n.step (.addBlock header [])) stack ∧
      (n.step (.addBlock header [])).dag = (n.dag.addBlock header).1 ∧
      (n.step (.addBlock header [])).executor = n.executor ∧
      (n.step (.addBlock header [])).txIndex = n.txIndex := by
  obtain ⟨hok, -⟩ := h.valid.addBlock_onTop hparents hp hnew
  -- the selected tip stays, so `advance` has nothing to execute
  have hrun : n.addBlock header [] = ({ n with
      dag := (n.dag.addBlock header).1
      bodies := n.bodies.insert header.hash [] }, .ok []) := by
    unfold NodeState.addBlock
    dsimp only
    rw [hok]
    dsimp only
    unfold NodeState.advance
    dsimp only
    rw [if_pos hvsp]
  have hstep : n.step (.addBlock header []) = { n with
      dag := (n.dag.addBlock header).1
      bodies := n.bodies.insert header.hash [] } := congrArg Prod.fst hrun
  have hvalid := h.valid.addBlock header
  have htip := (h.valid.addBlock_agree header).mem' h.tip_mem
  rw [hstep]
  refine ⟨?_, ⟨hvalid, htip, h.parallel, bodies_insert_nil h.bodies header.hash, h.stands,
    h.unpruned⟩, rfl, rfl, rfl⟩
  show (n.addBlock header []).2.isOk = true
  rw [hrun]
  rfl

/-- The node that has undone the blocks of `top` and executed those of `outcomes`. -/
def reorganised (n : NodeState) (header : Header) (X : ChainExecutor)
    (top outcomes : List ChainBlockOutcome) : NodeState :=
  { n with
    dag := (n.dag.addBlock header).1
    bodies := n.bodies.insert header.hash []
    executor := X
    txIndex := indexAll (Maps.retain
      (fun _ location => !(top.map ChainBlockOutcome.hash).contains location.chainBlock)
      n.txIndex) outcomes
    pool := settlePool n.pool X.state outcomes }

omit [TxCodec] in
/-- What a block that becomes the selected tip does to the node, if its undos and executions
succeed. -/
theorem addBlock_eq_reorganised {header : Header} {added : List BlockHash} {X Y : ChainExecutor}
    {outcomes : List ChainBlockOutcome} (hok : (n.dag.addBlock header).2 = .ok header.hash)
    (hvsp : (n.dag.addBlock header).1.virtualSelectedParent = header.hash)
    (hne : header.hash ≠ n.executor.tip)
    (hreorg : (n.dag.addBlock header).1.computeReorg n.executor.tip header.hash
      = ⟨top.map ChainBlockOutcome.hash, added⟩)
    (hundo : n.executor.undoAll (top.map ChainBlockOutcome.hash) = (Y, .ok ()))
    (hexec : Y.executeAll (n.dag.addBlock header).1 (n.bodies.insert header.hash []) added []
      = (X, .ok outcomes)) :
    n.addBlock header [] = (n.reorganised header X top outcomes, .ok outcomes) := by
  unfold NodeState.addBlock
  dsimp only
  rw [hok]
  dsimp only
  -- the header joins, becomes the tip, and the reorg to it goes through
  unfold NodeState.advance
  dsimp only
  rw [hvsp, if_neg hne]
  unfold NodeState.reorg ChainExecutor.applyReorg
  dsimp only
  rw [hvsp, hreorg, hundo]
  dsimp only
  rw [hexec]
  rfl

/-- Adding the block succeeds and leaves the node on a stack in which the blocks `added` have been
executed over `rest`, and the index without those of `top` and with the new ones. -/
structure Reorganises (known : Set ChainTx) (n : NodeState) (header : Header)
    (top rest : List ChainBlockOutcome) (added : List BlockHash)
    (outcomes : List ChainBlockOutcome) : Prop where
  succeeds : n.Succeeds (.addBlock header [])
  stands : StandsOn known (n.step (.addBlock header [])) (outcomes.reverse ++ rest)
  hashes : outcomes.map ChainBlockOutcome.hash = added
  dag : (n.step (.addBlock header [])).dag = (n.dag.addBlock header).1
  tip : (n.step (.addBlock header [])).executor.tip = header.hash
  params : (n.step (.addBlock header [])).executor.params = n.executor.params
  txIndex : (n.step (.addBlock header [])).txIndex = indexAll (Maps.retain
    (fun _ location => !(top.map ChainBlockOutcome.hash).contains location.chainBlock)
    n.txIndex) outcomes

/-- A block that becomes the selected tip: the executor undoes and executes what the walk has
found, whether or not it has met. -/
theorem StandsOn.addBlock_ahead (hevm : NonceGuarded) (hknown : Set.InjOn ChainTx.hash known)
    (h : StandsOn known n (top ++ rest)) {header : Header} {p : BlockHash}
    (hparents : header.parents = [p]) (hp : p ∈ n.dag.headers) (hnew : header.hash ∉ n.dag.headers)
    (hvsp : (n.dag.addBlock header).1.virtualSelectedParent = header.hash)
    {added : List BlockHash}
    (hreorg : (n.dag.addBlock header).1.computeReorg n.executor.tip header.hash
      = ⟨top.map ChainBlockOutcome.hash, added⟩) (hrest : rest ≠ [])
    (hadded : ∀ hash ∈ added, hash ∈ (n.dag.addBlock header).1.headers)
    (hlast : added.getLast? = some header.hash)
    (hwindow : rest.length + added.length ≤ n.executor.params.pruningWindowBlocks + 1) :
    ∃ outcomes, Reorganises known n header top rest added outcomes := by
  obtain ⟨hok, hontop⟩ := h.valid.addBlock_onTop hparents hp hnew
  have hne : header.hash ≠ n.executor.tip := fun he => hnew (he ▸ h.tip_mem)
  have hbodies := bodies_insert_nil h.bodies header.hash
  -- what the walk has passed on the old chain is undone
  obtain ⟨Y, hundo, hfullY⟩ := h.stands.undoAll_isOk hrest h.unpruned
  obtain ⟨top', rest', hsplit, htop', hY, hmodeY, hparamsY⟩ := h.stands.undoAll hundo
  have hlength : top.length = top'.length := by
    rw [← List.length_map (f := ChainBlockOutcome.hash), ← htop', List.length_map]
  obtain ⟨-, rfl⟩ := List.append_inj hsplit hlength
  rw [← hparamsY] at hY hwindow
  -- what it has passed on the new chain is executed
  obtain ⟨X, outcomes, hexec, hX, hhashes, hXtip, hXmode, hXparams⟩ := hY.executeAll hevm hknown
    hbodies hadded [] (hmodeY.trans h.parallel)
  have hroom : Y.height + added.length ≤ Y.params.pruningWindowBlocks := by
    have := hY.results.length
    omega
  -- no undo record has been pruned, as the window is wide enough
  have hfullX : (Y.executeAll (n.dag.addBlock header).1 (n.bodies.insert header.hash []) added
    []).1.Unpruned := hfullY.executeAll hadded [] hroom
  rw [List.nil_append] at hexec
  rw [hexec] at hfullX
  have hrun := addBlock_eq_reorganised hok hvsp hne hreorg hundo hexec
  have hstep : n.step (.addBlock header []) = n.reorganised header X top outcomes :=
    congrArg Prod.fst hrun
  have htip : X.tip = header.hash := by rw [hXtip, hlast, Option.getD_some]
  have hstands : StandsOn known (n.reorganised header X top outcomes)
      (outcomes.reverse ++ rest) := by
    refine ⟨h.valid.addBlock header, ?_, hXmode, hbodies, ?_, hfullX⟩
    · show X.tip ∈ (n.dag.addBlock header).1.headers
      rw [htip, hontop.headers]
      exact Finmap.mem_insert.mpr (Or.inl rfl)
    · show X.Stands (ChainExecutor.Ledger X.params known) _
      rw [hXparams]
      exact hX
  refine ⟨outcomes, ?_, ?_, hhashes, ?_, ?_, ?_, ?_⟩
  · show (n.addBlock header []).2.isOk = true
    rw [hrun]
    rfl
  · rw [hstep]
    exact hstands
  · rw [hstep]
    rfl
  · rw [hstep]
    exact htip
  · rw [hstep]
    exact hXparams.trans hparamsY
  · rw [hstep]
    rfl

omit [HeaderHash] [TxCodec] [Evm] [Trie] [FeeRule] in
/-- What the index learns points to the blocks it learns from. -/
theorem chainBlock_of_lookup_indexAll {outcomes : List ChainBlockOutcome}
    {txIndex : Map B256 TxLocation} {hash : B256} {location : TxLocation}
    (h : (indexAll txIndex outcomes).lookup hash = some location) :
    location.chainBlock ∈ outcomes.map ChainBlockOutcome.hash ∨
      txIndex.lookup hash = some location := by
  -- the fold over the entries: the last one written under this hash, or the old one
  have hentries : ∀ (entries : List (B256 × TxLocation)) (txIndex : Map B256 TxLocation),
      (entries.foldl (fun index entry => index.insert entry.1 entry.2) txIndex).lookup hash
        = some location → (hash, location) ∈ entries ∨ txIndex.lookup hash = some location := by
    intro entries
    induction entries with
    | nil => exact fun _ h => Or.inr h
    | cons entry entries ih =>
      intro txIndex h
      obtain h | h := ih _ h
      · exact Or.inl (List.mem_cons_of_mem _ h)
      · obtain ⟨rfl, rfl⟩ | ⟨-, h⟩ := Maps.lookup_insert_eq_some.mp h
        · exact Or.inl List.mem_cons_self
        · exact Or.inr h
  refine (hentries _ txIndex h).imp_left fun hmem => ?_
  obtain ⟨outcome, houtcome, hmem⟩ := List.mem_flatMap.mp hmem
  rw [(mem_locations.mp hmem).2.1]
  exact List.mem_map_of_mem houtcome

/-- A block on another branch that becomes the selected tip, when the walk meets: what lies above
the fork is undone, and the other branch executed. -/
theorem StandsOn.addBlock_fork (hevm : NonceGuarded) (hknown : Set.InjOn ChainTx.hash known)
    (h : StandsOn known n (top ++ rest)) {header : Header} {p : BlockHash}
    (hparents : header.parents = [p]) (hp : p ∈ n.dag.headers) (hnew : header.hash ∉ n.dag.headers)
    (hvsp : (n.dag.addBlock header).1.virtualSelectedParent = header.hash)
    {below common : List BlockHash}
    (htip : n.dag.selectedParentChain n.executor.tip = top.map ChainBlockOutcome.hash ++ common)
    (hchain : n.dag.selectedParentChain p = below ++ common)
    (hapart : ∀ x ∈ below, x ∉ top.map ChainBlockOutcome.hash) (hrest : rest ≠ [])
    (hreach : top.length + (below.length + 1) ≤ maxReorgWalk)
    (hwindow : rest.length + (below.length + 1) ≤ n.executor.params.pruningWindowBlocks + 1) :
    ∃ outcomes, Reorganises known n header top rest (header.hash :: below).reverse outcomes := by
  have hvalid := h.valid.addBlock header
  have hagree := h.valid.addBlock_agree header
  obtain ⟨-, hontop⟩ := h.valid.addBlock_onTop hparents hp hnew
  -- both chains are read in the store with the new block
  have hchain' : (n.dag.addBlock header).1.selectedParentChain header.hash
      = (header.hash :: below) ++ common := by
    rw [(h.valid.onTop_facts hparents hp hnew).1, hchain, List.cons_append]
  have htip' : (n.dag.addBlock header).1.selectedParentChain n.executor.tip
      = top.map ChainBlockOutcome.hash ++ common :=
    (hagree.selectedParentChain_eq h.tip_mem).symm.trans htip
  have hmem : header.hash ∈ (n.dag.addBlock header).1.headers := by
    rw [hontop.headers]
    exact Finmap.mem_insert.mpr (Or.inl rfl)
  have hmemTip := hagree.mem' h.tip_mem
  -- the two branches share nothing, as the new block is on neither
  have hnot : header.hash ∉ top.map ChainBlockOutcome.hash := fun hx =>
    hnew ((h.valid.anc_of_mem_chain h.tip_mem (htip ▸ List.mem_append_left _ hx)).mem
      h.valid.layered.toRooted h.tip_mem)
  have hapart' : ∀ x ∈ header.hash :: below, x ∉ top.map ChainBlockOutcome.hash := by
    intro x hx
    obtain rfl | hx := List.mem_cons.mp hx
    · exact hnot
    · exact hapart x hx
  have hnodupTip := hvalid.nodup_chain hmemTip
  have hnodup := hvalid.nodup_chain hmem
  rw [htip'] at hnodupTip
  rw [hchain'] at hnodup
  -- so each chain has for itself what lies above the common part
  have hold := DagStore.onlyOnChain_eq htip' hchain' fun x hx =>
    ⟨fun hx' => hapart' x hx' hx, fun hx' => List.disjoint_of_nodup_append hnodupTip hx hx'⟩
  have hnew' := DagStore.onlyOnChain_eq hchain' htip' fun x hx =>
    ⟨hapart' x hx, fun hx' => List.disjoint_of_nodup_append hnodup hx hx'⟩
  have hreorg := hvalid.computeReorg_eq hmemTip hmem (by
    unfold DagStore.divergence
    rw [hold, hnew', List.length_map]
    exact hreach)
  rw [hold, hnew'] at hreorg
  refine h.addBlock_ahead hevm hknown hparents hp hnew hvsp hreorg hrest (fun b hb => ?_) ?_ ?_
  · refine (hvalid.anc_of_mem_chain hmem ?_).mem hvalid.layered.toRooted hmem
    rw [hchain']
    exact List.mem_append_left _ (List.mem_reverse.mp hb)
  · rw [List.getLast?_reverse]
    rfl
  · rw [List.length_reverse]
    exact hwindow

end Calls

end NodeState

namespace Wallet

open Sample
open DagStore (rung rungs rungHashes rungWork rungWork_eq rungs_succ rungHashes_succ
  length_rungHashes mem_rungHashes rung_hash Foot Stood stood addBlocks_rungs_succ)

/-! ### A node that climbs a ladder -/

/-- The calls that add the rungs. -/
def climb (base m : ℕ) : List BackendCall := (rungs base m).map fun header => .addBlock header []

theorem climb_succ (base m : ℕ) :
    climb base (m + 1) = climb base m ++ [.addBlock (rung base (m + 1)) []] := by
  unfold climb
  rw [rungs_succ, List.map_append]
  rfl

theorem after_climb_succ [Evm] [Trie] [FeeRule] (n : NodeState) (base m : ℕ) :
    Runs.after NodeState.step n (climb base (m + 1))
      = (Runs.after NodeState.step n (climb base m)).step (.addBlock (rung base (m + 1)) []) := by
  rw [climb_succ, Runs.after_concat]

section Climb

variable [Evm] [Trie] [FeeRule] {known : Set ChainTx} {n : NodeState}
  {stack : List ChainBlockOutcome} {base m : ℕ}

open NodeState

/-- The node executes rung by rung of a ladder on its tip, when this has more blue work than the
other tips. -/
theorem climb_ahead (hevm : NonceGuarded) (hknown : Set.InjOn ChainTx.hash known)
    (h : StandsOn known n stack) (hne : stack ≠ []) (hfoot : Foot n.dag base m)
    (htip : n.executor.tip = hashOf (base + 1))
    (hbest : ∀ c ∈ n.dag.tips, c ≠ hashOf (base + 1) →
      n.dag.blueWork c < n.dag.blueWork (hashOf (base + 1)))
    (hwindow : stack.length + m ≤ n.executor.params.pruningWindowBlocks + 1) :
    Runs.Each step Succeeds n (climb base m) ∧ ∃ top : List ChainBlockOutcome,
      StandsOn known (Runs.after step n (climb base m)) (top ++ stack) ∧
      top.map ChainBlockOutcome.hash = rungHashes base m ∧
      (Runs.after step n (climb base m)).dag = n.dag.addBlocks (rungs base m) ∧
      (Runs.after step n (climb base m)).executor.tip = hashOf (base + m + 1) ∧
      (Runs.after step n (climb base m)).executor.params = n.executor.params := by
  induction m with
  | zero => exact ⟨trivial, [], h, rfl, rfl, htip, rfl⟩
  | succ m ih =>
    have hfoot' := hfoot.of_le (Nat.le_succ m)
    have hsmall := hfoot.small
    obtain ⟨hok, top, hstands, hhashes, hdag, htip', hparams⟩ := ih hfoot' (by omega)
    rw [climb_succ, Runs.each_append, ← climb_succ, after_climb_succ]
    generalize Runs.after step n (climb base m) = n' at hok hstands hdag htip' hparams ⊢
    have hm := stood hfoot'
    have hm' := stood hfoot
    obtain ⟨htop, hnew⟩ := hm.next hfoot
    rw [← hdag] at htop hnew
    have hparents : (rung base (m + 1)).parents = [hashOf (base + m + 1)] := rfl
    have hhash : (rung base (m + 1)).hash = hashOf (base + (m + 1) + 1) := rung_hash hsmall
    have hstep : (n'.dag.addBlock (rung base (m + 1))).1
        = n.dag.addBlocks (rungs base (m + 1)) := by
      rw [hdag, addBlocks_rungs_succ]
    -- the new rung has more blue work than the tips beside the ladder
    have hvsp : (n'.dag.addBlock (rung base (m + 1))).1.virtualSelectedParent
        = (rung base (m + 1)).hash := by
      rw [hstep, hhash]
      refine DagStore.virtualSelectedParent_eq ?_ fun c hc hcne => ?_
      · rw [hm'.tips]
        exact Finset.mem_insert_self _ _
      · rw [hm'.tips] at hc
        obtain ⟨hcfoot, hctip⟩ := Finset.mem_erase.mp ((Finset.mem_insert.mp hc).resolve_left hcne)
        rw [← hm'.agree.blueWork_eq (h.valid.mem_tips.mp hctip).1, hm'.work]
        exact Nat.lt_add_right _ (hbest c hctip hcfoot)
    have hlen : (top ++ stack).length = m + stack.length := by
      rw [List.length_append, ← length_rungHashes base m, ← hhashes, List.length_map]
    have hroom : (top ++ stack).length + 1 ≤ n'.executor.params.pruningWindowBlocks + 1 := by
      rw [hlen, hparams]
      omega
    -- nothing is undone, as the rung stands on the tip
    have hnothing : StandsOn known n' ([] ++ (top ++ stack)) := hstands
    obtain ⟨outcomes, hok', hstands', hhashes', hdag', htip'', hparams', -⟩ :=
      hnothing.addBlock_fork hevm hknown hparents htop hnew hvsp
        (congrArg n'.dag.selectedParentChain htip') rfl (fun x hx => absurd hx List.not_mem_nil)
        (List.append_ne_nil_of_right_ne_nil _ hne) (Nat.succ_pos _) hroom
    refine ⟨⟨hok, hok', trivial⟩, outcomes.reverse ++ top, ?_, ?_, ?_, ?_, ?_⟩
    · rw [List.append_assoc]
      exact hstands'
    · rw [List.map_append, List.map_reverse, hhashes', hhashes, hhash, rungHashes_succ]
      rfl
    · rw [hdag', hstep]
    · rw [htip'', hhash]
    · rw [hparams', hparams]

/-- The node leaves its executor alone when a ladder grows beside its tip, as long as this has
more blue work than the ladder. -/
theorem climb_beside (h : StandsOn known n stack) (hfoot : Foot n.dag base m)
    (htip : n.executor.tip ∈ n.dag.tips) (hne : n.executor.tip ≠ hashOf (base + 1))
    (hbest : ∀ c ∈ n.dag.tips, c ≠ n.executor.tip → c ≠ hashOf (base + 1) →
      n.dag.blueWork c < n.dag.blueWork n.executor.tip)
    (hwork : n.dag.blueWork (hashOf (base + 1)) + m * rungWork
      < n.dag.blueWork n.executor.tip) :
    Runs.Each step Succeeds n (climb base m) ∧
      StandsOn known (Runs.after step n (climb base m)) stack ∧
      (Runs.after step n (climb base m)).dag = n.dag.addBlocks (rungs base m) ∧
      (Runs.after step n (climb base m)).executor = n.executor := by
  induction m with
  | zero => exact ⟨trivial, h, rfl, rfl⟩
  | succ m ih =>
    have hfoot' := hfoot.of_le (Nat.le_succ m)
    have hsmall := hfoot.small
    have hwork' : n.dag.blueWork (hashOf (base + 1)) + m * rungWork
        < n.dag.blueWork n.executor.tip := by
      rw [Nat.succ_mul, ← Nat.add_assoc] at hwork
      exact Nat.lt_of_le_of_lt (Nat.le_add_right _ _) hwork
    obtain ⟨hok, hstands, hdag, hexecutor⟩ := ih hfoot' hwork'
    rw [climb_succ, Runs.each_append, ← climb_succ, after_climb_succ]
    generalize Runs.after step n (climb base m) = n' at hok hstands hdag hexecutor ⊢
    have hm' := stood hfoot
    obtain ⟨htop, hnew⟩ := (stood hfoot').next hfoot
    rw [← hdag] at htop hnew
    have hstep : (n'.dag.addBlock (rung base (m + 1))).1
        = n.dag.addBlocks (rungs base (m + 1)) := by
      rw [hdag, addBlocks_rungs_succ]
    -- the tip keeps more blue work than the ladder beside it
    have hvsp : (n'.dag.addBlock (rung base (m + 1))).1.virtualSelectedParent
        = n'.executor.tip := by
      rw [hstep, hexecutor]
      refine DagStore.virtualSelectedParent_eq ?_ fun c hc hcne => ?_
      · rw [hm'.tips]
        exact Finset.mem_insert_of_mem (Finset.mem_erase.mpr ⟨hne, htip⟩)
      · rw [← hm'.agree.blueWork_eq (h.valid.mem_tips.mp htip).1]
        rw [hm'.tips] at hc
        obtain rfl | hc := Finset.mem_insert.mp hc
        · rw [hm'.work]
          exact hwork
        · obtain ⟨hcfoot, hctip⟩ := Finset.mem_erase.mp hc
          rw [← hm'.agree.blueWork_eq (h.valid.mem_tips.mp hctip).1]
          exact hbest c hctip hcne hcfoot
    have hparents : (rung base (m + 1)).parents = [hashOf (base + m + 1)] := rfl
    obtain ⟨hok', hstands', hdag', hexecutor', -⟩ :=
      hstands.addBlock_beside hparents htop hnew hvsp
    exact ⟨⟨hok, hok', trivial⟩, hstands', hdag'.trans hstep, hexecutor'.trans hexecutor⟩

end Climb

/-! ### Two ladders side by side -/

/-- A network of a thousand blocks per second, whose nodes keep the most undo records. -/
def fast : ChainParams := { Sample.params with targetBlockIntervalMs := 1 }

def left : ℕ := 1000000000

def right : ℕ := 2000000000

/-- The lowest blocks of the ladders, both over block 1. The left one calls, the right one is
deeper. -/
def footing : List BackendCall :=
  [.addBlock (block 1 [0] 0x1f00ffff) [], .addBlock (block 2 [0] 0x2000ffff) [],
    .addBlock (block 3 [2] 0x2000ffff) [],
    .addBlock (block (left + 1) [1] 0x1f00ffff) [(call 0).tx],
    .addBlock (block (right + 1) [1, 3] 0x2000ffff) []]

/-- The only transaction. -/
def calling : Set ChainTx := {(call 0).tx}

/-- Two ladders of `l` and `r` rungs over block 1. -/
structure Ladders (D : DagStore) (l r : ℕ) : Prop where
  tips : D.tips = {hashOf (left + l + 1), hashOf (right + r + 1)}
  mem : ∀ b ∈ D.headers, (∃ i < 4, b = hashOf i) ∨ (∃ i ≤ l, b = hashOf (left + i + 1)) ∨
    ∃ i ≤ r, b = hashOf (right + i + 1)
  stored : hashOf 1 ∈ D.headers ∧ hashOf (left + 1) ∈ D.headers
  chainOne : D.selectedParentChain (hashOf 1) = [hashOf 1, hashOf 0]
  chainFoot : D.selectedParentChain (hashOf (left + 1)) = [hashOf (left + 1), hashOf 1, hashOf 0]
  chainLeft : D.selectedParentChain (hashOf (left + l + 1))
    = rungHashes left l ++ [hashOf (left + 1), hashOf 1, hashOf 0]
  chainRight : D.selectedParentChain (hashOf (right + r + 1))
    = rungHashes right r ++ [hashOf (right + 1), hashOf 1, hashOf 0]
  workOne : D.blueWork (hashOf 1) = 65793
  workFoot : D.blueWork (hashOf (left + 1)) = 131330
  workLeft : D.blueWork (hashOf (left + l + 1)) = 131330 + l * 256
  workRight : D.blueWork (hashOf (right + r + 1)) = 66561 + r * 256
  heightFoot : D.topologicalHeight (hashOf (left + 1)) = 2
  heightRight : ∀ i ≤ r, D.topologicalHeight (hashOf (right + i + 1)) = 3 + i

section Ladders

variable {D : DagStore} {l r : ℕ}

/-- Another nonce has not been stored. -/
theorem Ladders.fresh (h : Ladders D l r) (hsmall : l < left ∧ r < left) {n : ℕ}
    (hn : n < 2 ^ 64) (hfour : 4 ≤ n) (hl : n ≤ left ∨ left + l + 1 < n)
    (hr : n ≤ right ∨ right + r + 1 < n) : hashOf n ∉ D.headers := by
  have hleft : left = 1000000000 := rfl
  have hright : right = 2000000000 := rfl
  intro hmem
  obtain ⟨i, hi, he⟩ | ⟨i, hi, he⟩ | ⟨i, hi, he⟩ := h.mem _ hmem
  all_goals
    have := hashOf_injOn hn (by omega) he
    omega

theorem hashOf_ne {i j : ℕ} (hi : i < 2 ^ 64) (hj : j < 2 ^ 64) (hne : i ≠ j) :
    hashOf i ≠ hashOf j := fun he => hne (hashOf_injOn hi hj he)

/-- A nonce of neither foot has not been stored before the ladders grow. -/
theorem Ladders.fresh_of_ne (h : Ladders D 0 0) {n : ℕ} (hn : n < 2 ^ 64) (hfour : 4 ≤ n)
    (hl : n ≠ left + 1) (hr : n ≠ right + 1) : hashOf n ∉ D.headers :=
  h.fresh ⟨by decide, by decide⟩ hn hfour (by omega) (by omega)

/-- The left ladder stands on the store as it is. -/
theorem Ladders.foot_left (hD : D.Valid) (h : Ladders D 0 0) (hl : l < left) : Foot D left l := by
  have hleft : left = 1000000000 := rfl
  have hright : right = 2000000000 := rfl
  have hmax : 2 ^ 64 ≤ U256.max := U256.two_pow_le_max (by decide)
  refine ⟨hD, ?_, fun i hi => h.fresh_of_ne (by omega) (by omega) (by omega) (by omega), by omega,
    ?_⟩
  · rw [h.tips]
    exact Finset.mem_insert_self _ _
  · rw [h.workFoot, rungWork_eq]
    omega

theorem Ladders.tips_left (hD : D.Valid) (h : Ladders D 0 0) (hl : l < left) :
    (D.addBlocks (rungs left l)).tips = {hashOf (left + l + 1), hashOf (right + 1)} := by
  have hleft : left = 1000000000 := rfl
  have hright : right = 2000000000 := rfl
  have htips : D.tips = {hashOf (left + 1), hashOf (right + 1)} := h.tips
  rw [(stood (h.foot_left hD hl)).tips, htips, Finset.erase_insert]
  rw [Finset.mem_singleton]
  exact hashOf_ne (by omega) (by omega) (by omega)

theorem Ladders.mem_right (hD : D.Valid) (h : Ladders D 0 0) : hashOf (right + 1) ∈ D.headers := by
  have htips : D.tips = {hashOf (left + 1), hashOf (right + 1)} := h.tips
  refine (hD.mem_tips.mp ?_).1
  rw [htips]
  exact Finset.mem_insert_of_mem (Finset.mem_singleton_self _)

/-- The right ladder stands on the store with the left one in it. -/
theorem Ladders.foot_right (hD : D.Valid) (h : Ladders D 0 0) (hl : l < left) (hr : r < left) :
    Foot (D.addBlocks (rungs left l)) right r := by
  have hleft : left = 1000000000 := rfl
  have hright : right = 2000000000 := rfl
  have hmax : 2 ^ 64 ≤ U256.max := U256.two_pow_le_max (by decide)
  have hL := stood (h.foot_left hD hl)
  refine ⟨hL.valid, ?_, fun i hi => ?_, by omega, ?_⟩
  · -- the other foot is still a tip
    rw [h.tips_left hD hl]
    exact Finset.mem_insert_of_mem (Finset.mem_singleton_self _)
  · -- no rung of the second ladder is stored yet
    rw [hL.mem, not_or]
    refine ⟨h.fresh_of_ne (by omega) (by omega) (by omega) (by omega), fun hmem => ?_⟩
    obtain ⟨j, hj, he⟩ := mem_rungHashes.mp hmem
    exact hashOf_ne (by omega) (by omega) (by omega) he
  · -- the first ladder adds nothing behind the other foot
    have hwork : D.blueWork (hashOf (right + 1)) = 66561 + 0 * 256 := h.workRight
    rw [← hL.agree.blueWork_eq (h.mem_right hD), hwork, rungWork_eq]
    omega

/-- **The ladders grow**, the left one first. -/
theorem Ladders.grow (hD : D.Valid) (h : Ladders D 0 0) (hl : l < left) (hr : r < left) :
    Foot D left l ∧ Foot (D.addBlocks (rungs left l)) right r ∧
      Ladders ((D.addBlocks (rungs left l)).addBlocks (rungs right r)) l r := by
  have hleft : left = 1000000000 := rfl
  have hright : right = 2000000000 := rfl
  have hfoot := h.foot_left hD hl
  have hfoot' := h.foot_right hD hl hr
  have htipsL := h.tips_left hD hl
  have hmemRight := h.mem_right hD
  have hL := stood hfoot
  have hR := stood hfoot'
  refine ⟨hfoot, hfoot', ?_⟩
  -- what was stored is read in the last store as in the first
  have hkept : ∀ {b}, b ∈ D.headers → b ∈ (D.addBlocks (rungs left l)).headers :=
    fun hb => (hL.mem _).mpr (Or.inl hb)
  have hwork : ∀ {b}, b ∈ D.headers →
      ((D.addBlocks (rungs left l)).addBlocks (rungs right r)).blueWork b = D.blueWork b :=
    fun hb => by rw [← hR.agree.blueWork_eq (hkept hb), ← hL.agree.blueWork_eq hb]
  have hchain : ∀ {b}, b ∈ D.headers →
      ((D.addBlocks (rungs left l)).addBlocks (rungs right r)).selectedParentChain b
        = D.selectedParentChain b :=
    fun hb => by
      rw [← hR.agree.selectedParentChain_eq (hkept hb), ← hL.agree.selectedParentChain_eq hb]
  have hheight : ∀ {b}, b ∈ D.headers →
      ((D.addBlocks (rungs left l)).addBlocks (rungs right r)).topologicalHeight b
        = D.topologicalHeight b :=
    fun hb => by
      rw [← hR.agree.topologicalHeight_eq (hkept hb), ← hL.agree.topologicalHeight_eq hb]
  have htopL : hashOf (left + l + 1) ∈ (D.addBlocks (rungs left l)).headers := by
    refine (hL.valid.mem_tips.mp ?_).1
    rw [htipsL]
    exact Finset.mem_insert_self _ _
  obtain ⟨hone, hfootMem⟩ := h.stored
  refine ⟨?_, fun b hb => ?_, ⟨?_, ?_⟩, ?_, ?_, ?_, ?_, ?_, ?_, ?_, ?_, ?_, fun i hi => ?_⟩
  · rw [hR.tips, htipsL, Finset.pair_comm, Finset.erase_insert, Finset.pair_comm]
    rw [Finset.mem_singleton]
    exact hashOf_ne (by omega) (by omega) (by omega)
  · obtain hb | hb := (hR.mem b).mp hb
    · obtain hb | hb := (hL.mem b).mp hb
      · obtain hb | ⟨i, hi, hb⟩ | ⟨i, hi, hb⟩ := h.mem b hb
        · exact Or.inl hb
        · exact Or.inr (Or.inl ⟨i, by omega, hb⟩)
        · exact Or.inr (Or.inr ⟨i, by omega, hb⟩)
      · obtain ⟨i, hi, hb⟩ := mem_rungHashes.mp hb
        exact Or.inr (Or.inl ⟨i + 1, hi, hb⟩)
    · obtain ⟨i, hi, hb⟩ := mem_rungHashes.mp hb
      exact Or.inr (Or.inr ⟨i + 1, hi, hb⟩)
  · exact (hR.mem _).mpr (Or.inl (hkept hone))
  · exact (hR.mem _).mpr (Or.inl (hkept hfootMem))
  · rw [hchain hone, h.chainOne]
  · rw [hchain hfootMem, h.chainFoot]
  · rw [← hR.agree.selectedParentChain_eq htopL, hL.chain, h.chainFoot]
  · have hright' : D.selectedParentChain (hashOf (right + 1))
        = [hashOf (right + 1), hashOf 1, hashOf 0] := h.chainRight
    rw [hR.chain, ← hL.agree.selectedParentChain_eq hmemRight, hright']
  · rw [hwork hone, h.workOne]
  · rw [hwork hfootMem, h.workFoot]
  · rw [← hR.agree.blueWork_eq htopL, hL.work, h.workFoot, rungWork_eq]
  · have hright' : D.blueWork (hashOf (right + 1)) = 66561 := h.workRight
    rw [hR.work, ← hL.agree.blueWork_eq hmemRight, hright', rungWork_eq]
  · rw [hheight hfootMem, h.heightFoot]
  · have hright' : D.topologicalHeight (hashOf (right + 1)) = 3 := h.heightRight 0 le_rfl
    rw [hR.height i hi, ← hL.agree.topologicalHeight_eq hmemRight, hright']

end Ladders

open NodeState

theorem pruningWindow_fast : fast.pruningWindowBlocks = 86400000 := rfl

/-- The node before the ladders grow. -/
def footed : NodeState := Runs.after step (NodeState.new fast root funded 18) footing

theorem footing_succeeds : Runs.Each step Succeeds (NodeState.new fast root funded 18) footing := by
  refine ⟨?_, ?_, ?_, ?_, ?_, trivial⟩ <;> (unfold Succeeds; decide +kernel)

theorem ladders_footed : Ladders footed.dag 0 0 := by
  have hkeys : footed.dag.headers.keys = {hashOf 0, hashOf 1, hashOf 2, hashOf 3,
    hashOf (left + 1), hashOf (right + 1)} := by decide +kernel
  refine ⟨by decide +kernel, fun b hb => ?_, by decide +kernel, by decide +kernel,
    by decide +kernel, by decide +kernel, by decide +kernel, by decide +kernel, by decide +kernel,
    by decide +kernel, by decide +kernel, by decide +kernel, by decide +kernel⟩
  -- the stored blocks are the root, the three above it and the two feet
  have hmem := Finmap.mem_keys.mpr hb
  rw [hkeys] at hmem
  simp only [Finset.mem_insert, Finset.mem_singleton] at hmem
  obtain rfl | rfl | rfl | rfl | rfl | rfl := hmem
  · exact Or.inl ⟨0, by decide, rfl⟩
  · exact Or.inl ⟨1, by decide, rfl⟩
  · exact Or.inl ⟨2, by decide, rfl⟩
  · exact Or.inl ⟨3, by decide, rfl⟩
  · exact Or.inr (Or.inl ⟨0, le_rfl, rfl⟩)
  · exact Or.inr (Or.inr ⟨0, le_rfl, rfl⟩)

theorem tip_footed : footed.executor.tip = hashOf (left + 1) := by decide +kernel

/-- The call has been executed at height 2. -/
theorem footed_stands : ∃ first older : ChainBlockOutcome, ∃ oldest : ChainBlockOutcome,
    StandsOn calling footed [first, older, oldest] ∧ first.hash = hashOf (left + 1) ∧
      first.transactionHashes = [(call 0).tx.hash] := by
  have hknown : Set.InjOn ChainTx.hash calling := Set.injOn_singleton _ _
  have hreach : Runs.Each step InReach (NodeState.new fast root funded 18) footing := by
    refine ⟨?_, ?_, ?_, ?_, ?_, trivial⟩ <;> (show _ ≤ _; decide +kernel)
  have hcarried : Runs.Each step (fun _ call => ∀ tx ∈ transactionsOf [call], tx ∈ calling)
      (NodeState.new fast root funded 18) footing :=
    Runs.each_of_mem (fun _ => by simp [footing, transactionsOf, calling]) _
  have hlegal := (footing_succeeds.and hreach).and hcarried
  -- the five calls are legal, so the invariant of the index describes the stack
  have hinv : IndexInv calling footed := by
    refine Runs.Throughout.last (hlegal.throughout (fun n call h hcall => ?_)
      (indexInv_new fast root funded 18))
    exact h.step walletEvm_nonceGuarded hknown hcall.2 hcall.1.1.executes hcall.1.2
  obtain ⟨stack, hstands, hchain, -⟩ := hinv.stack
  rw [tip_footed, ladders_footed.chainFoot] at hchain
  obtain ⟨first, rest, rfl, hfirst, hrest⟩ := List.map_eq_cons_iff.mp hchain
  obtain ⟨older, rest, rfl, -, hrest⟩ := List.map_eq_cons_iff.mp hrest
  obtain ⟨oldest, rest, rfl, -, hrest⟩ := List.map_eq_cons_iff.mp hrest
  obtain rfl := List.map_eq_nil_iff.mp hrest
  refine ⟨first, older, oldest, ⟨hinv.valid, hinv.tip_mem, hinv.parallel, hinv.bodies, hstands, ?_⟩,
    hfirst, ?_⟩
  · show _ = _
    decide +kernel
  · -- the newest block of the stack is the result at height 2
    have hresult : footed.executor.results.lookup 2 = some first := hstands.results.lookup 2
    have hhashes : (footed.executor.results.lookup 2).map ChainBlockOutcome.transactionHashes
        = some [(call 0).tx.hash] := by decide +kernel
    rw [hresult] at hhashes
    exact Option.some.inj hhashes

/-- The block that makes the right ladder the heavier one. -/
def past (r : ℕ) : Header := block (right + r + 2) [right + r + 1] 0x1c00ffff

/-- A block on the foot of the left ladder. -/
def again : Header := block 4 [left + 1] 0x1b00ffff

/-- A block beside both ladders. -/
def back : Header := block 5 [1] 0x1a00ffff

theorem work_past (r : ℕ) : headerWork (past r) = 1099528405248 := by
  have hbits : (past r).bits = (past 0).bits := rfl
  rw [headerWork_congr hbits]
  rfl

theorem work_again : headerWork again = 281479271743489 := rfl

theorem work_back : headerWork back = 72058693566333184 := rfl

theorem saturatingAdd_small {a b : ℕ} (h : a + b < 2 ^ 64) : U256.saturatingAdd a b = a + b :=
  Nat.min_eq_left (h.le.trans (U256.two_pow_le_max (by decide)))

section Overtaken

variable {D : DagStore} {n : NodeState} {top rest : List ChainBlockOutcome} {l r : ℕ}

/-- The new branch, newest first. -/
def branch (r : ℕ) : List BlockHash :=
  hashOf (right + r + 2) :: (rungHashes right r ++ [hashOf (right + 1)])

theorem length_branch (r : ℕ) : (branch r).length = r + 2 := by
  unfold branch
  rw [List.length_cons, List.length_append, length_rungHashes, List.length_singleton]

theorem mem_branch {r : ℕ} {b : BlockHash} :
    b ∈ branch r ↔ ∃ i ≤ r + 1, b = hashOf (right + i + 1) := by
  unfold branch
  rw [List.mem_cons, List.mem_append, mem_rungHashes, List.mem_singleton]
  refine ⟨?_, ?_⟩
  · rintro (rfl | ⟨i, hi, rfl⟩ | rfl)
    · exact ⟨r + 1, le_rfl, rfl⟩
    · exact ⟨i + 1, by omega, rfl⟩
    · exact ⟨0, Nat.zero_le _, rfl⟩
  · rintro ⟨i, hi, rfl⟩
    obtain rfl | hlast := eq_or_ne i (r + 1)
    · exact Or.inl rfl
    cases i with
    | zero => exact Or.inr (Or.inr rfl)
    | succ i => exact Or.inr (Or.inl ⟨i, by omega, rfl⟩)

theorem hash_past (hr : r < left) : (past r).hash = hashOf (right + r + 2) := by
  have hleft : left = 1000000000 := rfl
  have hright : right = 2000000000 := rfl
  exact block_hash (by omega) _ _

theorem Ladders.top_mem (hD : D.Valid) (h : Ladders D l r) :
    hashOf (left + l + 1) ∈ D.headers ∧ hashOf (right + r + 1) ∈ D.headers := by
  have htips : ∀ {b}, b ∈ ({hashOf (left + l + 1), hashOf (right + r + 1)} : Finset BlockHash) →
      b ∈ D.headers := fun hb => (hD.mem_tips.mp (h.tips ▸ hb)).1
  exact ⟨htips (Finset.mem_insert_self _ _),
    htips (Finset.mem_insert_of_mem (Finset.mem_singleton_self _))⟩

theorem Ladders.past_notMem (h : Ladders D l r) (hl : l < left) (hr : r < left) :
    (past r).hash ∉ D.headers := by
  have hleft : left = 1000000000 := rfl
  have hright : right = 2000000000 := rfl
  rw [hash_past hr]
  exact h.fresh ⟨hl, hr⟩ (by omega) (by omega) (by omega) (by omega)

/-- The new block stands on the right ladder and outweighs both. -/
theorem Ladders.past_heaviest (hD : D.Valid) (h : Ladders D l r) (hl : l < left) (hr : r < left) :
    (D.addBlock (past r)).1.virtualSelectedParent = (past r).hash ∧
      ∀ c ∈ (D.addBlock (past r)).1.tips, (D.addBlock (past r)).1.blueWork c < 2 ^ 48 := by
  have hleft : left = 1000000000 := rfl
  have hwork : U256.saturatingAdd (D.blueWork (hashOf (right + r + 1))) (headerWork (past r))
      = 66561 + r * 256 + 1099528405248 := by
    rw [h.workRight, work_past]
    exact saturatingAdd_small (by omega)
  -- the new block outweighs both tips
  obtain ⟨hvsp, htips⟩ := hD.addBlock_heaviest (w := 131330 + (l + r) * 256) rfl
    (h.top_mem hD).2 (h.past_notMem hl hr) (fun c hc => by
      rw [h.tips, Finset.mem_insert, Finset.mem_singleton] at hc
      obtain rfl | rfl := hc
      · rw [h.workLeft]
        omega
      · rw [h.workRight]
        omega) (by rw [hwork]; omega)
  rw [hwork] at htips
  exact ⟨hvsp, fun c hc => Nat.lt_of_le_of_lt (htips c hc) (by omega)⟩

theorem Ladders.chain_past (hD : D.Valid) (h : Ladders D l r) (hl : l < left) (hr : r < left) :
    (D.addBlock (past r)).1.selectedParentChain (past r).hash
      = branch r ++ [hashOf 1, hashOf 0] := by
  rw [(hD.onTop_facts rfl (h.top_mem hD).2 (h.past_notMem hl hr)).1, h.chainRight, hash_past hr]
  unfold branch
  rw [List.cons_append, List.append_assoc]
  rfl

/-- The foot of the left ladder lies deeper than the right ladder. -/
theorem Ladders.height_branch (hD : D.Valid) (h : Ladders D l r) (hl : l < left) (hr : r < left)
    {y : BlockHash} (hy : y ∈ branch r) :
    (D.addBlock (past r)).1.topologicalHeight (hashOf (left + 1))
      < (D.addBlock (past r)).1.topologicalHeight y := by
  have hp := (h.top_mem hD).2
  have hagree := hD.addBlock_agree (past r)
  obtain ⟨i, hi, rfl⟩ := mem_branch.mp hy
  rw [← hagree.topologicalHeight_eq h.stored.2, h.heightFoot]
  -- the new block lies above the top rung, the others above the foot
  obtain rfl | hlast := eq_or_ne i (r + 1)
  · have hlast : hashOf (right + (r + 1) + 1) = (past r).hash := (hash_past hr).symm
    obtain ⟨-, hheight, -⟩ := hD.onTop_facts rfl hp (h.past_notMem hl hr)
    rw [hlast, hheight, h.heightRight r le_rfl]
    omega
  · have hmem : hashOf (right + i + 1) ∈ D.headers := by
      refine (hD.anc_of_mem_chain hp ?_).mem hD.layered.toRooted hp
      rw [h.chainRight]
      refine List.mem_append.mpr ?_
      cases i with
      | zero => exact Or.inr List.mem_cons_self
      | succ i => exact Or.inl (mem_rungHashes.mpr ⟨i, by omega, rfl⟩)
    rw [← hagree.topologicalHeight_eq hmem, h.heightRight i (by omega)]
    omega

/-- **The walk stops one block short**: the chains meet at block 1, with one block more above it
than the walk may pass, and the foot of the left ladder is not among those to undo. -/
theorem Ladders.computeReorg_past (hD : D.Valid) (h : Ladders D l r)
    (hguard : l + r + 2 = maxReorgWalk) (hlr : r ≤ l) (hl : l < left) :
    (D.addBlock (past r)).1.computeReorg (hashOf (left + l + 1)) (past r).hash
      = ⟨rungHashes left l, (branch r).reverse⟩ := by
  have hleft : left = 1000000000 := rfl
  have hright : right = 2000000000 := rfl
  have hmax : maxReorgWalk = 100000000 := rfl
  have hr : r < left := by omega
  obtain ⟨htipL, hp⟩ := h.top_mem hD
  have hagree := hD.addBlock_agree (past r)
  obtain ⟨-, hontop⟩ := hD.addBlock_onTop rfl hp (h.past_notMem hl hr)
  have hmem : (past r).hash ∈ (D.addBlock (past r)).1.headers := by
    rw [hontop.headers]
    exact Finmap.mem_insert.mpr (Or.inl rfl)
  -- the old chain down to where the two part
  have hold : (D.addBlock (past r)).1.selectedParentChain (hashOf (left + l + 1))
      = (rungHashes left l ++ [hashOf (left + 1)]) ++ [hashOf 1, hashOf 0] := by
    rw [← hagree.selectedParentChain_eq htipL, h.chainLeft, List.append_assoc]
    rfl
  -- the walk gives up one step before the cursors meet
  refine (hD.addBlock (past r)).computeReorg_one_short (hagree.mem' htipL) hmem hold
    (h.chain_past hD hl hr) ?_ ?_ fun y hy => h.height_branch hD hl hr hy
  · -- the two sides share no block
    intro z hz hz'
    obtain ⟨j, hj, rfl⟩ := mem_branch.mp hz'
    obtain hz | hz := List.mem_append.mp hz
    · obtain ⟨i, hi, he⟩ := mem_rungHashes.mp hz
      exact hashOf_ne (by omega) (by omega) (by omega) he
    · exact hashOf_ne (by omega) (by omega) (by omega) (List.mem_singleton.mp hz)
  · rw [List.length_append, length_rungHashes, List.length_singleton, length_branch]
    omega

/-- **The reorganisation past the guard.** The ladders differ in one block more than the guard
allows, and the foot of the left one is not undone. -/
theorem overtake (h : StandsOn calling n (top ++ rest)) (hlad : Ladders n.dag l r)
    (hguard : l + r + 2 = maxReorgWalk) (hlr : r ≤ l) (hl : l < left)
    (htip : n.executor.tip = hashOf (left + l + 1))
    (htop : top.map ChainBlockOutcome.hash = rungHashes left l) (hrest : rest ≠ [])
    (hwindow : rest.length + (r + 2) ≤ n.executor.params.pruningWindowBlocks + 1) :
    ∃ outcomes, Reorganises calling n (past r) top rest (branch r).reverse outcomes := by
  have hmax : maxReorgWalk = 100000000 := rfl
  have hleft : left = 1000000000 := rfl
  have hr : r < left := by omega
  have hp := (hlad.top_mem h.valid).2
  have hnew := hlad.past_notMem hl hr
  have hvalid := h.valid.addBlock (past r)
  obtain ⟨-, hontop⟩ := h.valid.addBlock_onTop rfl hp hnew
  have hmem : (past r).hash ∈ (n.dag.addBlock (past r)).1.headers := by
    rw [hontop.headers]
    exact Finmap.mem_insert.mpr (Or.inl rfl)
  -- `compute_reorg` leaves the two lists it has collected so far
  have hreorg : (n.dag.addBlock (past r)).1.computeReorg n.executor.tip (past r).hash
      = ⟨top.map ChainBlockOutcome.hash, (branch r).reverse⟩ := by
    rw [htip, htop]
    exact hlad.computeReorg_past h.valid hguard hlr hl
  -- every block it adds is stored
  have hadded : ∀ b ∈ (branch r).reverse, b ∈ (n.dag.addBlock (past r)).1.headers := by
    intro b hb
    refine (hvalid.anc_of_mem_chain hmem ?_).mem hvalid.layered.toRooted hmem
    rw [hlad.chain_past h.valid hl hr]
    exact List.mem_append_left _ (List.mem_reverse.mp hb)
  have hlast : (branch r).reverse.getLast? = some (past r).hash := by
    rw [List.getLast?_reverse, hash_past hr]
    rfl
  have hroom : rest.length + (branch r).reverse.length
      ≤ n.executor.params.pruningWindowBlocks + 1 := by
    rw [List.length_reverse, length_branch]
    exact hwindow
  -- the executor undoes and executes them, one block short of the fork
  exact h.addBlock_ahead walletEvm_nonceGuarded (Set.injOn_singleton _ _) rfl hp hnew
    (hlad.past_heaviest h.valid hl hr).1 hreorg hrest hadded hlast hroom

/-- The node after the reorganisation past the guard: the right ladder lies on top of the left
one's foot. -/
structure Overtaken (n : NodeState) (r : ℕ) (older : List ChainBlockOutcome) : Prop where
  stack : ∃ top : List ChainBlockOutcome, StandsOn calling n (top ++ older) ∧
    top.map ChainBlockOutcome.hash = branch r
  params : n.executor.params = fast
  chain : n.dag.selectedParentChain n.executor.tip = branch r ++ [hashOf 1, hashOf 0]
  chainFoot : n.dag.selectedParentChain (hashOf (left + 1))
    = [hashOf (left + 1)] ++ [hashOf 1, hashOf 0]
  chainOne : n.dag.selectedParentChain (hashOf 1) = [hashOf 1, hashOf 0]
  stored : hashOf 1 ∈ n.dag.headers ∧ hashOf (left + 1) ∈ n.dag.headers
  fresh : ∀ m, 4 ≤ m → m ≤ left → hashOf m ∉ n.dag.headers
  work : ∀ c ∈ n.dag.tips, n.dag.blueWork c ≤ 2 ^ 48
  workOne : n.dag.blueWork (hashOf 1) = 65793
  workFoot : n.dag.blueWork (hashOf (left + 1)) = 131330

/-- What was stored before the last block is read after it as before. -/
theorem overtaken_of_reorganises {top older outcomes : List ChainBlockOutcome}
    (h : Reorganises calling n (past r) top older (branch r).reverse outcomes) (hD : n.dag.Valid)
    (hlad : Ladders n.dag l r) (hparams : n.executor.params = fast) (hl : l < left)
    (hr : r < left) : Overtaken (n.step (.addBlock (past r) [])) r older := by
  have hleft : left = 1000000000 := rfl
  have hright : right = 2000000000 := rfl
  have hp := (hlad.top_mem hD).2
  have hnew := hlad.past_notMem hl hr
  have hagree := hD.addBlock_agree (past r)
  obtain ⟨-, hontop⟩ := hD.addBlock_onTop (rfl : (past r).parents = [_]) hp hnew
  obtain ⟨hone, hfoot⟩ := hlad.stored
  refine ⟨⟨outcomes.reverse, h.stands, ?_⟩, h.params.trans hparams, ?_, ?_, ?_, ?_, ?_, ?_, ?_, ?_⟩
  · rw [List.map_reverse, h.hashes, List.reverse_reverse]
  · rw [h.tip, h.dag, hlad.chain_past hD hl hr]
  · rw [h.dag, ← hagree.selectedParentChain_eq hfoot, hlad.chainFoot]
    rfl
  · rw [h.dag, ← hagree.selectedParentChain_eq hone, hlad.chainOne]
  · rw [h.dag]
    exact ⟨hagree.mem' hone, hagree.mem' hfoot⟩
  · -- what is mined later is new to the store
    intro m hm hm'
    rw [h.dag, hontop.headers, Finmap.mem_insert, not_or]
    exact ⟨fun he => hashOf_ne (by omega) (by omega) (by omega) (he.trans (hash_past hr)),
      hlad.fresh ⟨hl, hr⟩ (by omega) hm (Or.inl hm') (Or.inl (by omega))⟩
  · rw [h.dag]
    exact fun c hc => ((hlad.past_heaviest hD hl hr).2 c hc).le
  · rw [h.dag, ← hagree.blueWork_eq hone, hlad.workOne]
  · rw [h.dag, ← hagree.blueWork_eq hfoot, hlad.workFoot]

/-- The ladders grow side by side, and the right one overtakes. -/
theorem overtaken {n : NodeState} {older : List ChainBlockOutcome} (h : StandsOn calling n older)
    (hlad : Ladders n.dag 0 0) (htip : n.executor.tip = hashOf (left + 1))
    (hparams : n.executor.params = fast) (hthree : older.length = 3) {l r : ℕ}
    (hguard : l + r + 2 = maxReorgWalk) (hlr : r ≤ l) (hl : l + 2 ≤ fast.pruningWindowBlocks) :
    Runs.Each step Succeeds n (climb left l ++ (climb right r ++ [.addBlock (past r) []])) ∧
      Overtaken (Runs.after step n (climb left l ++ (climb right r ++ [.addBlock (past r) []])))
        r older := by
  have hleft : left = 1000000000 := rfl
  have hright : right = 2000000000 := rfl
  have hmax : maxReorgWalk = 100000000 := rfl
  have hroom := pruningWindow_fast
  have hne : older ≠ [] := List.length_pos_iff.mp (by omega)
  obtain ⟨hfoot, hfoot', hgrown⟩ := hlad.grow (l := l) (r := r) h.valid (by omega) (by omega)
  obtain ⟨-, -, hgrown₁⟩ := hlad.grow (l := l) (r := 0) h.valid (by omega) (by omega)
  have htips : n.dag.tips = {hashOf (left + 1), hashOf (right + 1)} := hlad.tips
  have hworkRight : n.dag.blueWork (hashOf (right + 1)) = 66561 := hlad.workRight
  -- the left ladder is executed
  obtain ⟨hok₁, top, h₁, htop, hdag₁, htip₁, hparams₁⟩ :=
    climb_ahead walletEvm_nonceGuarded (Set.injOn_singleton _ _) h hne hfoot htip
      (fun c hc hne => by
        rw [htips, Finset.mem_insert, Finset.mem_singleton] at hc
        rw [hc.resolve_left hne, hlad.workFoot, hworkRight]
        omega)
      (by rw [hparams, hroom]; omega)
  have hafter : Runs.after step n (climb left l ++ (climb right r ++ [.addBlock (past r) []]))
      = (Runs.after step (Runs.after step n (climb left l)) (climb right r)).step
        (.addBlock (past r) []) := by
    rw [Runs.after_append, Runs.after_concat]
  rw [Runs.each_append, Runs.each_append, hafter]
  generalize Runs.after step n (climb left l) = n₁ at h₁ hdag₁ htip₁ hparams₁ ⊢
  change Ladders (n.dag.addBlocks (rungs left l)) l 0 at hgrown₁
  rw [← hdag₁] at hgrown₁ hfoot' hgrown
  rw [hparams] at hparams₁
  have htips₁ : n₁.dag.tips = {hashOf (left + l + 1), hashOf (right + 1)} := hgrown₁.tips
  have hworkRight₁ : n₁.dag.blueWork (hashOf (right + 1)) = 66561 := hgrown₁.workRight
  -- the right one is only stored
  obtain ⟨hok₂, h₂, hdag₂, hexecutor₂⟩ := climb_beside (m := r) h₁ hfoot'
    (by rw [htips₁, htip₁]; exact Finset.mem_insert_self _ _)
    (by
      rw [htip₁]
      intro he
      have := hashOf_injOn (by omega) (by omega) he
      omega)
    (fun c hc hne hne' => by
      rw [htips₁, Finset.mem_insert, Finset.mem_singleton, ← htip₁] at hc
      exact absurd (hc.resolve_left hne) hne')
    (by
      rw [hworkRight₁, htip₁, hgrown₁.workLeft, rungWork_eq]
      omega)
  generalize Runs.after step n₁ (climb right r) = n₂ at h₂ hdag₂ hexecutor₂ ⊢
  rw [← hdag₂] at hgrown
  -- and made heavier
  have hparams₂ : n₂.executor.params = fast := by rw [hexecutor₂, hparams₁]
  obtain ⟨outcomes, h₃⟩ :=
    overtake h₂ hgrown hguard hlr (by omega) (by rw [hexecutor₂, htip₁]) htop hne (by
      rw [hparams₂, hroom]
      omega)
  exact ⟨⟨hok₁, hok₂, h₃.succeeds, trivial⟩,
    overtaken_of_reorganises h₃ h₂.valid hgrown hparams₂ (by omega) (by omega)⟩

/-- The node after the foot of the left ladder has been executed on top of itself. -/
structure ExecutedTwice (n : NodeState) (older : List ChainBlockOutcome) : Prop where
  stack : ∃ top : List ChainBlockOutcome, StandsOn calling n (top ++ older) ∧
    top.map ChainBlockOutcome.hash = [again.hash, hashOf (left + 1)]
  params : n.executor.params = fast
  chain : n.dag.selectedParentChain n.executor.tip
    = [again.hash, hashOf (left + 1)] ++ [hashOf 1, hashOf 0]
  chainOne : n.dag.selectedParentChain (hashOf 1) = [] ++ [hashOf 1, hashOf 0]
  stored : hashOf 1 ∈ n.dag.headers
  fresh : back.hash ∉ n.dag.headers
  work : ∀ c ∈ n.dag.tips, n.dag.blueWork c ≤ 2 ^ 49
  workOne : n.dag.blueWork (hashOf 1) = 65793

/-- A block on the foot of the left ladder: the foot is executed again. -/
theorem Overtaken.executes_again {n : NodeState} {r : ℕ} {older : List ChainBlockOutcome}
    (h : Overtaken n r older) (hthree : older.length = 3) (hr : r + 4 ≤ maxReorgWalk) :
    n.Succeeds (.addBlock again []) ∧ ExecutedTwice (n.step (.addBlock again [])) older := by
  have hleft : left = 1000000000 := rfl
  have hright : right = 2000000000 := rfl
  have hmax : maxReorgWalk = 100000000 := rfl
  have hroom := pruningWindow_fast
  obtain ⟨top, hstands, htop⟩ := h.stack
  obtain ⟨hone, hfoot⟩ := h.stored
  have hlen : top.length = r + 2 := by
    rw [← length_branch r, ← htop, List.length_map]
  have hagain : again.hash = hashOf 4 := block_hash (by omega) _ _
  have hover : again.parents = [hashOf (left + 1)] := rfl
  have hnew : again.hash ∉ n.dag.headers := hagain ▸ h.fresh 4 le_rfl (by omega)
  have hsum : U256.saturatingAdd (n.dag.blueWork (hashOf (left + 1))) (headerWork again)
      = 131330 + 281479271743489 := by
    rw [h.workFoot, work_again]
    exact saturatingAdd_small (by omega)
  obtain ⟨hvsp, hwork⟩ := hstands.valid.addBlock_heaviest hover hfoot hnew h.work
    (by rw [hsum]; omega)
  -- the foot is not on the branch that was executed last
  have hapart : ∀ x ∈ [hashOf (left + 1)], x ∉ top.map ChainBlockOutcome.hash := by
    intro x hx
    rw [htop, List.mem_singleton.mp hx, mem_branch]
    rintro ⟨i, hi, he⟩
    exact hashOf_ne (by omega) (by omega) (by omega) he
  obtain ⟨outcomes, hok, hstands', hhashes, hdag, htip, hparams, -⟩ := hstands.addBlock_fork
    walletEvm_nonceGuarded (Set.injOn_singleton _ _) hover hfoot hnew hvsp
    (h.chain.trans (htop ▸ rfl)) h.chainFoot hapart (List.ne_nil_of_length_pos (by omega))
    (by rw [hlen]; exact hr) (by
      rw [h.params, hroom, hthree]
      decide)
  have hagree := hstands.valid.addBlock_agree again
  have hchain := (hstands.valid.onTop_facts hover hfoot hnew).1
  obtain ⟨-, hontop⟩ := hstands.valid.addBlock_onTop hover hfoot hnew
  rw [← hdag] at hwork hagree hchain hontop
  rw [hsum] at hwork
  refine ⟨hok, ⟨outcomes.reverse, hstands', ?_⟩, hparams.trans h.params, ?_, ?_,
    hagree.mem' hone, ?_, fun c hc => (hwork c hc).trans (by decide), ?_⟩
  · rw [List.map_reverse, hhashes, List.reverse_reverse]
  · rw [htip, hchain, h.chainFoot]
    rfl
  · rw [← hagree.selectedParentChain_eq hone, h.chainOne]
    rfl
  · have hback : back.hash = hashOf 5 := block_hash (by omega) _ _
    rw [hontop.headers, Finmap.mem_insert, not_or, hback, hagain]
    exact ⟨hashOf_ne (by omega) (by omega) (by omega), h.fresh 5 (by omega) (by omega)⟩
  · rw [← hagree.blueWork_eq hone, h.workOne]

/-- A block beside both ladders: the second execution of the foot is undone, and nothing points to
the first. -/
theorem ExecutedTwice.loses {n : NodeState} {first : ChainBlockOutcome}
    {older : List ChainBlockOutcome} (h : ExecutedTwice n (first :: older))
    (hfirst : first.hash = hashOf (left + 1))
    (hexecuted : first.transactionHashes = [(call 0).tx.hash]) (hthree : older.length = 2) :
    n.Succeeds (.addBlock back []) ∧ ¬ IndexMirrorsChain (n.step (.addBlock back [])) := by
  have hmax : maxReorgWalk = 100000000 := rfl
  have hroom := pruningWindow_fast
  obtain ⟨top, hstands, htop⟩ := h.stack
  have hlen : top.length = 2 := by
    rw [← List.length_map (f := ChainBlockOutcome.hash), htop]
    rfl
  have hbeside : back.parents = [hashOf 1] := rfl
  have hsum : U256.saturatingAdd (n.dag.blueWork (hashOf 1)) (headerWork back)
      = 65793 + 72058693566333184 := by
    rw [h.workOne, work_back]
    exact saturatingAdd_small (by omega)
  obtain ⟨hvsp, -⟩ := hstands.valid.addBlock_heaviest hbeside h.stored h.fresh h.work
    (by rw [hsum]; omega)
  obtain ⟨last, hok, hstands', hhashes, -, -, -, hindex⟩ := hstands.addBlock_fork
    walletEvm_nonceGuarded (Set.injOn_singleton _ _) hbeside h.stored h.fresh hvsp
    (h.chain.trans (htop ▸ rfl)) h.chainOne (fun x hx => absurd hx List.not_mem_nil)
    (List.cons_ne_nil _ _)
    (by
      rw [hlen, List.length_nil]
      omega)
    (by
      rw [h.params, hroom, List.length_cons, hthree]
      decide)
  refine ⟨hok, fun hmirrors => ?_⟩
  have hlast : last.length = 1 := by
    rw [← List.length_map (f := ChainBlockOutcome.hash), hhashes]
    rfl
  obtain ⟨newest, rfl⟩ := List.length_eq_one_iff.mp hlast
  obtain ⟨older, oldest, rfl⟩ := List.length_eq_two.mp hthree
  -- the first execution is still there, at height 2
  have hresult := hstands'.stands.results.lookup 2
  have hlookup := (hmirrors.mirrors (call 0).tx.hash ⟨2, hashOf (left + 1), 0⟩).mpr
    ⟨first, hresult, hfirst, by rw [hexecuted]; rfl⟩
  rw [hindex] at hlookup
  obtain hnewest | hkept := chainBlock_of_lookup_indexAll hlookup
  · -- the index has learnt only the block beside the ladders
    have hleft : left = 1000000000 := rfl
    have hback : back.hash = hashOf 5 := block_hash (by omega) _ _
    rw [hhashes, hback] at hnewest
    exact hashOf_ne (by omega) (by omega) (by omega) (List.mem_singleton.mp hnewest)
  · -- and has dropped all entries of the foot, also that of its first execution
    have hdropped := (Maps.lookup_retain_eq_some.mp hkept).2
    rw [htop] at hdropped
    simp at hdropped

/-- **The index loses an executed transaction.** After the foot of the left ladder has been
executed on top of itself and undone, nothing points to its first execution. -/
theorem Overtaken.loses {n : NodeState} {r : ℕ} {first : ChainBlockOutcome}
    {older : List ChainBlockOutcome} (h : Overtaken n r (first :: older))
    (hfirst : first.hash = hashOf (left + 1))
    (hexecuted : first.transactionHashes = [(call 0).tx.hash]) (hthree : older.length = 2)
    (hr : r + 4 ≤ maxReorgWalk) :
    Runs.Each step Succeeds n [.addBlock again [], .addBlock back []] ∧
      ¬ IndexMirrorsChain (Runs.after step n [.addBlock again [], .addBlock back []]) := by
  obtain ⟨hok, htwice⟩ := h.executes_again (congrArg Nat.succ hthree) hr
  obtain ⟨hok', hlost⟩ := htwice.loses hfirst hexecuted hthree
  exact ⟨⟨hok, hok', trivial⟩, hlost⟩

end Overtaken

end Wallet

namespace NodeState

open Wallet Sample

/-- A run with a reorganisation one block longer than the guard. -/
def overrun (l r : ℕ) : List BackendCall :=
  footing ++ (climb left l ++ (climb right r ++ [.addBlock (past r) []])) ++
    [.addBlock again [], .addBlock back []]

theorem transactionsOf_append (calls calls' : List BackendCall) :
    transactionsOf (calls ++ calls') = transactionsOf calls ++ transactionsOf calls' :=
  List.flatMap_append

theorem transactionsOf_climb (base m : ℕ) : transactionsOf (climb base m) = [] := by
  unfold transactionsOf
  refine List.flatMap_eq_nil_iff.mpr fun call hcall => ?_
  obtain ⟨header, -, rfl⟩ := List.mem_map.mp hcall
  rfl

theorem eq_call_of_mem_overrun {l r : ℕ} {tx : ChainTx} (h : tx ∈ transactionsOf (overrun l r)) :
    tx = (call 0).tx := by
  unfold overrun at h
  simp only [transactionsOf_append, transactionsOf_climb] at h
  simpa [transactionsOf, footing] using h

/-- The calls of the run return `Ok`, and the index does not mirror the chain at its end. -/
theorem overrun_loses {l r : ℕ} (hguard : l + r + 2 = maxReorgWalk) (hlr : r ≤ l)
    (hl : l + 2 ≤ fast.pruningWindowBlocks) (hr : r + 4 ≤ maxReorgWalk) :
    Runs.Each step Succeeds (new fast root funded 18) (overrun l r) ∧
      ¬ Runs.Throughout step IndexMirrorsChain (new fast root funded 18) (overrun l r) := by
  obtain ⟨first, older, oldest, hstands, hfirst, hexecuted⟩ := footed_stands
  obtain ⟨hok, hovertaken⟩ := overtaken hstands ladders_footed tip_footed rfl rfl hguard hlr hl
  obtain ⟨hok', hlost⟩ := hovertaken.loses hfirst hexecuted rfl hr
  unfold overrun
  -- the last state has lost an entry
  refine ⟨?_, fun h => hlost ?_⟩
  · -- the footing, then the long reorg
    rw [Runs.each_append, Runs.each_append]
    refine ⟨⟨footing_succeeds, hok⟩, ?_⟩
    rw [Runs.after_append]
    exact hok'
  · have hlast := h.last
    rw [Runs.after_append, Runs.after_append] at hlast
    exact hlast

/-- Past the guard of the walk the index does not mirror the executed chain, though every call
returns `Ok`, nonces are guarded and hashes identify the transactions. -/
theorem index_lost_past_guard : NonceGuarded ∧
    (∀ tx ∈ transactionsOf (overrun 50000000 49999998),
      ∀ tx' ∈ transactionsOf (overrun 50000000 49999998), tx.hash = tx'.hash → tx = tx') ∧
    Runs.Each step Succeeds (new fast root funded 18) (overrun 50000000 49999998) ∧
    ¬ Runs.Throughout step IndexMirrorsChain (new fast root funded 18)
      (overrun 50000000 49999998) := by
  refine ⟨walletEvm_nonceGuarded, fun tx htx tx' htx' _ => ?_, ?_⟩
  · rw [eq_call_of_mem_overrun htx, eq_call_of_mem_overrun htx']
  · exact overrun_loses rfl (by decide) (by decide) (by decide)

end NodeState

end Chainname
