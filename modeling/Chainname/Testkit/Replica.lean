import Chainname.Chain.Advance
import Chainname.Net.Acceptance
import Chainname.Rpc.Backend

/-!
# A full node

A node that synchronises a DAG with its peers and executes it. After a call to the network layer
it drains the list of accepted blocks, decodes their bodies, and brings execution up to the
selected chain (`noteChanges`). The network layer knows bodies as opaque bytes; the executor sees
transactions, and what does not decode is left out.

`Ledger` is what has been issued: blocks with their bodies, of which a hash names at most one. A
node that is only handed issued blocks (`Kept`) has for every block it executes the body the block
was issued with, so that its executor is where a fresh one would be that executes the selected
chain with these bodies (`Kept.call`, `Kept.noteChanges`).
-/

namespace Chainname

open ChainExecutor DagStore

/-- The body of a block, as received. -/
def DagSync.body (S : DagSync) (hash : BlockHash) : List Bytes := (S.bodies.lookup hash).getD []

/-- The transactions of a body. One that does not decode, or whose signer does not recover, is
dropped. -/
def decodeBody [TxCodec] (encoded : List Bytes) : List ChainTx :=
  encoded.filterMap fun bytes =>
    match TxCodec.decode2718 bytes with
    | .error _ => none
    | .ok envelope =>
      match TxCodec.recoverSigner envelope with
      | .error _ => none
      | .ok signer => some (TxCodec.recovered envelope signer).tx

/-- The part of a node that other nodes act on. -/
structure Replica where
  sync : DagSync
  executor : ChainExecutor
  bodies : BodyStore

namespace Replica

section Code

/-- The DAG and the executor. -/
def node (n : Replica) : Node := ⟨n.sync.dag, n.executor⟩

/-- The loop of `note_changes`: the bodies of accepted blocks are decoded and kept. -/
def absorb [TxCodec] (n : Replica) (accepted : List BlockHash) : Replica :=
  { n with
    bodies := accepted.foldl
      (fun bodies hash => bodies.insert hash (decodeBody (n.sync.body hash))) n.bodies }

variable [Evm] [Trie] [FeeRule]

/-- Brings execution up to the selected parent chain, and tells how many blocks have left it. -/
def advanceExecution (n : Replica) : Replica × Except ExecutionError ℕ :=
  let newTip := n.sync.dag.virtualSelectedParent
  if newTip = n.executor.tip then (n, .ok 0)
  else
    let reorg := n.sync.dag.computeReorg n.executor.tip newTip
    let applied := n.executor.applyReorg n.sync.dag n.bodies reorg.removed reorg.added
    ({ n with executor := applied.1 }, applied.2.map fun _ => reorg.removed.length)

/-- Absorbs newly accepted blocks and advances execution. -/
def noteChanges [TxCodec] (n : Replica) : Replica × Except ExecutionError ℕ :=
  let drained := n.sync.drainAccepted
  if drained.2 = [] then ({ n with sync := drained.1 }, .ok 0)
  else (({ n with sync := drained.1 } : Replica).absorb drained.2).advanceExecution

end Code

end Replica

/-! ### What has been issued -/

/-- Issued blocks: a hash names at most one, genesis is empty, and `bodies` has the transactions
of each. -/
structure Ledger [HeaderHash] [TxCodec] (genesis : Header) (P : BlockPayload → Prop)
    (bodies : BodyStore) : Prop where
  names : Names P
  genesis : P ⟨genesis, []⟩
  body : ∀ block, P block → bodies.get block.hash = decodeBody block.transactions

namespace Replica

section Kept

variable [HeaderHash] [TxCodec] [Evm] [Trie] [FeeRule]

/-- Where a node is that has been handed issued blocks only. -/
structure Kept (genesis : Header) (P : BlockPayload → Prop) (bodies : BodyStore)
    (codeOf : B256 → Bytecode) (start : ChainExecutor) (n : Replica) : Prop where
  genuine : n.sync.Genuine P
  network : n.sync.config.genesis = genesis.hash
  node : Node.NodeInv codeOf start bodies n.node
  accepted : ∀ b ∈ n.sync.accepted, b ∈ n.sync.dag.headers
  /-- What has been drained is known with the body it was issued with. -/
  noted : ∀ b ∈ n.sync.dag.headers, b ∉ n.sync.accepted → n.bodies.get b = bodies.get b
  /-- With nothing left to drain, execution is up to date. -/
  settled : n.sync.accepted = [] → n.executor.tip = n.sync.dag.virtualSelectedParent

variable {genesis : Header} {P : BlockPayload → Prop} {bodies : BodyStore}
  {codeOf : B256 → Bytecode} {start : ChainExecutor} {n : Replica}

/-- **A call to the network layer**, which touches neither the bodies nor the executor. -/
theorem Kept.call (hledger : Ledger genesis P bodies) (hcode : CodeByHash codeOf)
    (hstart : Start codeOf start) (h : n.Kept genesis P bodies codeOf start) {call : SyncCall}
    (hcall : call.Honest genesis.hash P) :
    ({ n with sync := n.sync.step call } : Replica).Kept genesis P bodies codeOf start := by
  -- what a call does to the DAG: headers join it, and each is among the accepted
  have hkeyed : n.sync.HashKeyed := h.genuine.weaken fun _ _ => trivial
  obtain ⟨-, new, hnew⟩ := DagSync.Joins.step hkeyed call
  obtain ⟨headers, hgrown⟩ := DagSync.grown_step (S := n.sync) call
  refine ⟨h.genuine.step hledger.names hcall, ?_, ?_, ?_, ?_, ?_⟩
  · show (n.sync.step call).config.genesis = _
    rw [(DagSync.sameSetup_step call).config]
    exact h.network
  · show Node.NodeInv codeOf start bodies ⟨(n.sync.step call).dag, n.executor⟩
    rw [hgrown]
    exact h.node.grow hcode hstart headers
  · -- an accepted block has joined the DAG
    intro b hb
    change b ∈ (n.sync.step call).accepted at hb
    show b ∈ (n.sync.step call).dag.headers
    rw [hnew.accepted, List.mem_append] at hb
    rw [hnew.mem]
    exact hb.imp (h.accepted b) id
  · -- a block not accepted was there before, its body noted
    intro b hb hnot
    change b ∈ (n.sync.step call).dag.headers at hb
    change b ∉ (n.sync.step call).accepted at hnot
    rw [hnew.accepted, List.mem_append, not_or] at hnot
    exact h.noted b (((hnew.mem b).mp hb).resolve_right hnot.2) hnot.1
  · -- nothing accepted: the same selected parent
    intro hnil
    change (n.sync.step call).accepted = [] at hnil
    rw [hnew.accepted, List.append_eq_nil_iff] at hnil
    show n.executor.tip = (n.sync.step call).dag.virtualSelectedParent
    rw [h.settled hnil.1, hnew.same hnil.2]
    rfl

/-! ### Noting what has been accepted -/

omit [HeaderHash] [Evm] [Trie] [FeeRule] in
/-- **What absorbing does to the bodies**: those of the accepted blocks are decoded, the others
stay. -/
theorem get_absorb (n : Replica) (accepted : List BlockHash) (b : BlockHash) :
    (n.absorb accepted).bodies.get b
      = if b ∈ accepted then decodeBody (n.sync.body b) else n.bodies.get b := by
  unfold absorb
  dsimp only
  generalize n.bodies = bodies
  -- the last of the accepted that is `b` decides, and all of them write the same body
  induction accepted generalizing bodies with
  | nil => rfl
  | cons hash accepted ih =>
    rw [List.foldl_cons, ih]
    by_cases hrest : b ∈ accepted
    · rw [if_pos hrest, if_pos (List.mem_cons_of_mem hash hrest)]
    · rw [if_neg hrest]
      rw [BodyStore.get_insert]
      -- here `b` is the block written first
      by_cases hb : b = hash
      · rw [if_pos hb, if_pos (hb ▸ List.mem_cons_self), hb]
      · rw [if_neg hb, if_neg fun hmem => (List.mem_cons.mp hmem).elim hb hrest]

/-- The body a node has of a block in its DAG is the one it was issued with. -/
theorem Kept.body_eq (hledger : Ledger genesis P bodies)
    (h : n.Kept genesis P bodies codeOf start) {b : BlockHash} (hb : b ∈ n.sync.dag.headers) :
    decodeBody (n.sync.body b) = bodies.get b := by
  obtain ⟨header, hl⟩ := Maps.mem_iff_exists_lookup.mp hb
  have hbody := hledger.body _ (h.genuine.dag hl)
  have hhash : (n.sync.heldBlock b header).hash = b := h.genuine.dag_key hl
  rw [hhash] at hbody
  exact hbody.symm

/-- Once absorbed, every block of the DAG is known with the body it was issued with. -/
theorem Kept.get_absorb (hledger : Ledger genesis P bodies)
    (h : n.Kept genesis P bodies codeOf start) {b : BlockHash} (hb : b ∈ n.sync.dag.headers) :
    (n.absorb n.sync.accepted).bodies.get b = bodies.get b := by
  rw [Replica.get_absorb]
  by_cases hmem : b ∈ n.sync.accepted
  · rw [if_pos hmem]
    exact h.body_eq hledger hb
  · rw [if_neg hmem]
    exact h.noted b hb hmem

/-- The node as it is when execution is about to advance. -/
def absorbed (n : Replica) : Replica :=
  ({ n with sync := n.sync.drainAccepted.1 } : Replica).absorb n.sync.accepted

omit [HeaderHash] in
theorem noteChanges_eq (n : Replica) :
    n.noteChanges = if n.sync.accepted = [] then (n, .ok 0) else n.absorbed.advanceExecution := by
  unfold noteChanges
  dsimp only
  by_cases hnil : n.sync.accepted = []
  · rw [if_pos hnil, if_pos (show n.sync.drainAccepted.2 = [] from hnil)]
    unfold DagSync.drainAccepted
    rw [← hnil]
  · rw [if_neg hnil, if_neg (show n.sync.drainAccepted.2 ≠ [] from hnil)]
    rfl

omit [HeaderHash] [TxCodec] [Evm] [Trie] [FeeRule] in
theorem isOk_map {ε α β : Type} (f : α → β) (result : Except ε α) :
    (result.map f).isOk = result.isOk := by
  cases result with
  | error e => rfl
  | ok a => rfl

omit [HeaderHash] [TxCodec] in
/-- Execution is where it should be, or the pending reorganisation is applied. -/
theorem advanceExecution_cases (n : Replica) :
    n.executor.tip = n.sync.dag.virtualSelectedParent ∧ n.advanceExecution = (n, .ok 0) ∨
    n.executor.tip ≠ n.sync.dag.virtualSelectedParent ∧
      n.advanceExecution.1 = { n with
        executor := (n.executor.applyReorg n.sync.dag n.bodies n.node.pending.removed
          n.node.pending.added).1 } ∧
      n.advanceExecution.2 = (n.executor.applyReorg n.sync.dag n.bodies n.node.pending.removed
        n.node.pending.added).2.map fun _ => n.node.pending.removed.length := by
  unfold advanceExecution
  dsimp only
  -- the tip is the selected parent already, or a reorg leads to it
  by_cases htip : n.sync.dag.virtualSelectedParent = n.executor.tip
  · rw [if_pos htip]
    exact Or.inl ⟨htip.symm, rfl⟩
  · rw [if_neg htip]
    exact Or.inr ⟨Ne.symm htip, rfl, rfl⟩

/-- **Noting changes** that succeeds brings the node up to date. -/
theorem Kept.noteChanges (hledger : Ledger genesis P bodies) (hcode : CodeByHash codeOf)
    (hstart : Start codeOf start) (h : n.Kept genesis P bodies codeOf start)
    (hreach : n.sync.dag.divergence n.executor.tip n.sync.dag.virtualSelectedParent ≤ maxReorgWalk)
    (hok : n.noteChanges.2.isOk = true) :
    n.noteChanges.1.Kept genesis P bodies codeOf start ∧ n.noteChanges.1.sync.accepted = [] := by
  rw [noteChanges_eq] at hok ⊢
  -- nothing was accepted, nothing is noted
  by_cases hnil : n.sync.accepted = []
  · rw [if_pos hnil]
    exact ⟨h, hnil⟩
  rw [if_neg hnil] at hok ⊢
  have hnoted : ∀ b ∈ n.sync.dag.headers, n.absorbed.bodies.get b = bodies.get b := fun b hb =>
    h.get_absorb hledger hb
  have hgenuine : n.absorbed.sync.Genuine P :=
    ⟨h.genuine.dag_key, h.genuine.orphan_key, h.genuine.dag, h.genuine.orphans⟩
  have hfresh : n.absorbed.sync.accepted = [] := rfl
  obtain ⟨htip, heq⟩ | ⟨htip, heq, hresult⟩ := n.absorbed.advanceExecution_cases
  · -- the selected chain is as it was
    rw [heq]
    refine ⟨⟨hgenuine, h.network, h.node, fun b hb => ?_, fun b hb _ => hnoted b hb,
      fun _ => htip⟩, hfresh⟩
    exact absurd hb List.not_mem_nil
  · -- the reorg's bodies are those of the blocks it walks, all in the DAG
    have happly : (n.executor.applyReorg n.sync.dag n.absorbed.bodies n.node.pending.removed
        n.node.pending.added).2.isOk = true := by
      rw [hresult, isOk_map] at hok
      exact hok
    have hlegal : Node.Legal bodies n.node (.reorg n.absorbed.bodies) := by
      refine ⟨⟨happly, fun hash hmem source hsource => hnoted source ?_⟩, hreach⟩
      have hstored := h.node.pending_known hreach hash hmem
      exact (h.node.valid.anc_of_mem_baseSequence hstored hsource).mem
        h.node.valid.layered.toRooted hstored
    rw [heq]
    refine ⟨⟨hgenuine, h.network, h.node.step hcode hstart hlegal, fun b hb => ?_,
      fun b hb _ => hnoted b hb, fun _ => ?_⟩, hfresh⟩
    · exact absurd hb List.not_mem_nil
    · exact h.node.tip_reorg hreach htip happly

/-- **Noting changes does not fail** while nothing has been pruned, which is so as long as the
chain is no longer than the pruning window. -/
theorem Kept.noteChanges_isOk (hcode : CodeByHash codeOf) (hstart : Start codeOf start)
    (h : n.Kept genesis P bodies codeOf start) (hunpruned : n.executor.Unpruned)
    (hreach : n.sync.dag.divergence n.executor.tip n.sync.dag.virtualSelectedParent ≤ maxReorgWalk)
    (hwindow : n.node.selectedHeight ≤ start.params.pruningWindowBlocks) :
    n.noteChanges.2.isOk = true ∧ n.noteChanges.1.executor.Unpruned := by
  rw [noteChanges_eq]
  split
  · exact ⟨rfl, hunpruned⟩
  · obtain ⟨-, heq⟩ | ⟨-, heq, hresult⟩ := n.absorbed.advanceExecution_cases
    · rw [heq]
      exact ⟨rfl, hunpruned⟩
    · rw [heq, hresult, isOk_map]
      exact h.node.advance hcode hstart hunpruned hreach hwindow n.absorbed.bodies

/-! ### How much a node holds -/

omit [HeaderHash] [Evm] [Trie] [FeeRule] in
theorem sync_noteChanges [Evm] [Trie] [FeeRule] (n : Replica) :
    n.noteChanges.1.sync = { n.sync with accepted := [] } := by
  rw [noteChanges_eq]
  split
  · next hnil => rw [← hnil]
  · obtain ⟨-, heq⟩ | ⟨-, heq, -⟩ := n.absorbed.advanceExecution_cases
    · rw [heq]
      rfl
    · rw [heq]
      rfl

omit [TxCodec] in
/-- A DAG holds no more blocks than have been issued. -/
theorem Kept.len_le (h : n.Kept genesis P bodies codeOf start) {issued : List BlockPayload}
    (hissued : ∀ block, P block → block ∈ issued) : n.sync.dag.len ≤ issued.length := by
  have hsubset : n.sync.dag.headers.keys ⊆ (issued.map BlockPayload.hash).toFinset := by
    intro b hb
    obtain ⟨header, hl⟩ := Maps.mem_iff_exists_lookup.mp (Finmap.mem_keys.mp hb)
    refine List.mem_toFinset.mpr (List.mem_map.mpr ⟨_, hissued _ (h.genuine.dag hl), ?_⟩)
    exact h.genuine.dag_key hl
  calc n.sync.dag.len
      ≤ (issued.map BlockPayload.hash).toFinset.card := Finset.card_le_card hsubset
    _ ≤ (issued.map BlockPayload.hash).length := List.toFinset_card_le _
    _ = issued.length := List.length_map _

omit [TxCodec] in
/-- The chains of a node differ in no more blocks than have been issued. -/
theorem Kept.divergence_le (h : n.Kept genesis P bodies codeOf start) {issued : List BlockPayload}
    (hissued : ∀ block, P block → block ∈ issued) :
    n.sync.dag.divergence n.executor.tip n.sync.dag.virtualSelectedParent ≤ issued.length :=
  (h.node.valid.divergence_le_len h.node.tip_mem
    (h.node.valid.mem_tips.mp h.node.valid.virtualSelectedParent_mem).1).trans (h.len_le hissued)

omit [TxCodec] in
/-- Nor is a chain longer. -/
theorem Kept.selectedHeight_lt (h : n.Kept genesis P bodies codeOf start)
    {issued : List BlockPayload} (hissued : ∀ block, P block → block ∈ issued) :
    n.node.selectedHeight < issued.length := by
  have hvsp := (h.node.valid.mem_tips.mp h.node.valid.virtualSelectedParent_mem).1
  have hlen := (h.node.valid.length_chain_le hvsp).trans (h.len_le hissued)
  have hpos : 0 < (n.node.dag.selectedParentChain n.node.dag.virtualSelectedParent).length :=
    List.length_pos_of_mem (List.mem_of_mem_head? (h.node.valid.head?_chain hvsp))
  unfold Node.selectedHeight
  omega

end Kept

end Replica

end Chainname
