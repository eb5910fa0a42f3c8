import Chainname.Testkit.Replica

/-!
# A network of full nodes

Any number of nodes, and all that any of them has ever sent. What has been sent may arrive
anywhere, as from any peer, at any time, in any order, any number of times, or never; nodes
connect, disconnect, let their timers run, mine and note changes whenever they like. The one thing
that does not happen is that a message arrives which nobody has sent.

In every run of such a network each node holds only blocks that have been mined, each with the
body it was mined with, and its executor is where a fresh one would be that executes its selected
chain. So two nodes with the same block at a height have recorded the same for it, whatever else
they hold (`network_safety`). No node fails to follow its chain while no more blocks have been
mined than undo records are kept (`network_never_fails`).
-/

namespace Chainname

open ChainExecutor DagStore

/-- The nodes, and every message that has been sent. -/
structure Network (ι : Type) where
  replicas : ι → Replica
  sent : List Message

/-- What may happen: a call is made to a node, or a node notes what it has accepted. -/
inductive NetworkEvent (ι : Type) where
  | call (node : ι) (call : SyncCall)
  | note (node : ι)

/-- What the nodes of a network share from the start, and what is left to each. -/
structure NetworkSetup (ι : Type) where
  genesis : Header
  k : UInt16
  mergesetSizeLimit : ℕ
  params : ChainParams
  genesisState : WorldState
  gate : ι → Header → Except String Unit
  maxOrphans : ι → ℕ
  requestTimeoutMs : ι → ℕ

/-- The messages among actions. -/
def sentMessages (actions : List Action) : List Message :=
  actions.filterMap fun
    | .send _ message => some message
    | .disconnect _ _ => none

theorem mem_sentMessages {actions : List Action} {message : Message} :
    message ∈ sentMessages actions ↔ ∃ peer, Action.send peer message ∈ actions := by
  unfold sentMessages
  rw [List.mem_filterMap]
  constructor
  · rintro ⟨action, hmem, hsome⟩
    cases action with
    | send peer sent => exact ⟨peer, Option.some.inj hsome ▸ hmem⟩
    | disconnect peer reason => cases hsome
  · rintro ⟨peer, hmem⟩
    exact ⟨_, hmem, rfl⟩

/-! ### Issued blocks -/

/-- The transactions of issued blocks. -/
def issuedBodies [HeaderHash] [TxCodec] (issued : List BlockPayload) : BodyStore :=
  issued.foldl (fun bodies block => bodies.insert block.hash (decodeBody block.transactions)) ∅

section Issued

variable [HeaderHash] [TxCodec]

/-- An issued block has its own body, as no other block goes by its hash. -/
theorem get_issuedBodies {issued : List BlockPayload} (hnames : Names (· ∈ issued))
    {block : BlockPayload} (hblock : block ∈ issued) :
    (issuedBodies issued).get block.hash = decodeBody block.transactions := by
  -- the fold over the issued blocks, whose names tell them apart
  have hfold : ∀ (l : List BlockPayload) (bodies : BodyStore), l ⊆ issued →
      (block ∈ l ∨ bodies.get block.hash = decodeBody block.transactions) →
      BodyStore.get (l.foldl (fun bodies other =>
        bodies.insert other.hash (decodeBody other.transactions)) bodies) block.hash
          = decodeBody block.transactions := by
    intro l
    induction l with
    | nil => exact fun _ _ h => h.resolve_left List.not_mem_nil
    | cons other l ih =>
      intro bodies hsub h
      refine ih _ (fun _ hmem => hsub (List.mem_cons_of_mem other hmem)) ?_
      by_cases hhash : block.hash = other.hash
      · -- the body just put in is that of the block
        obtain rfl := hnames block other hblock (hsub List.mem_cons_self) hhash
        refine Or.inr ?_
        rw [BodyStore.get_insert, if_pos rfl]
      · obtain hmem | hget := h
        · obtain rfl | hmem := List.mem_cons.mp hmem
          · exact absurd rfl hhash
          · exact Or.inl hmem
        · refine Or.inr ?_
          rw [BodyStore.get_insert, if_neg hhash]
          exact hget
  exact hfold issued ∅ (List.Subset.refl _) (Or.inl hblock)

theorem ledger_of_issued {genesis : Header} {issued : List BlockPayload}
    (hnames : Names (· ∈ issued)) (hgenesis : ⟨genesis, []⟩ ∈ issued) :
    Ledger genesis (· ∈ issued) (issuedBodies issued) :=
  ⟨hnames, hgenesis, fun _ hblock => get_issuedBodies hnames hblock⟩

end Issued

namespace Network

variable {ι : Type} [DecidableEq ι]

section Code

variable [HeaderHash] [TxCodec] [Evm] [Trie] [FeeRule]

/-- One event. -/
def step (N : Network ι) : NetworkEvent ι → Network ι
  | .call node made =>
    let done := (N.replicas node).sync.call made
    { replicas := Function.update N.replicas node { N.replicas node with sync := done.1 }
      sent := N.sent ++ sentMessages done.2 }
  | .note node =>
    { N with replicas := Function.update N.replicas node (N.replicas node).noteChanges.1 }

/-- What arrives has been sent. -/
def Delivers (N : Network ι) : NetworkEvent ι → Prop
  | .call _ (.message _ message _) => message ∈ N.sent
  | _ => True

instance decidableDelivers (N : Network ι) :
    ∀ event : NetworkEvent ι, Decidable (N.Delivers event)
  | .call _ (.message _ message _) => inferInstanceAs (Decidable (message ∈ N.sent))
  | .call _ (.connect _) | .call _ (.disconnect _) | .call _ (.tick _) | .call _ (.localBlock _)
  | .note _ => inferInstanceAs (Decidable True)

/-- A node that notes changes does not fail. -/
def Succeeds (N : Network ι) : NetworkEvent ι → Prop
  | .call _ _ => True
  | .note node => (N.replicas node).noteChanges.2.isOk = true

instance decidableSucceeds (N : Network ι) :
    ∀ event : NetworkEvent ι, Decidable (N.Succeeds event)
  | .call _ _ => inferInstanceAs (Decidable True)
  | .note node => inferInstanceAs (Decidable ((N.replicas node).noteChanges.2.isOk = true))

end Code

omit [DecidableEq ι] in
/-- The blocks mined in a run. -/
def mined (events : List (NetworkEvent ι)) : List BlockPayload :=
  events.filterMap fun
    | .call _ (.localBlock block) => some block
    | _ => none

end Network

namespace NetworkSetup

variable {ι : Type} [HeaderHash] [Trie] [FeeRule] (setup : NetworkSetup ι)

/-- The executor every node starts with. -/
def executor : ChainExecutor :=
  .new setup.params setup.genesisState setup.genesis.hash

/-- A node at the start. -/
def replica (i : ι) : Replica where
  sync := .new (.new setup.genesis setup.k setup.mergesetSizeLimit) (setup.gate i)
    ⟨setup.maxOrphans i, setup.requestTimeoutMs i, setup.genesis.hash⟩
  executor := setup.executor
  bodies := ∅

/-- The network at the start. -/
def start : Network ι := ⟨setup.replica, []⟩

omit [HeaderHash] [Trie] [FeeRule] in
/-- Genesis and the blocks mined in a run. -/
def issued (events : List (NetworkEvent ι)) : List BlockPayload :=
  ⟨setup.genesis, []⟩ :: Network.mined events

end NetworkSetup

namespace Network

variable {ι : Type} [HeaderHash] [TxCodec] [Evm] [Trie] [FeeRule] (setup : NetworkSetup ι)

/-- What a network guarantees whose blocks are `issued`. -/
structure Safe (issued : List BlockPayload) (N : Network ι) : Prop where
  /-- Every block of a DAG is an issued one, under its hash and with its body. -/
  stored : ∀ i b header, (N.replicas i).sync.dag.headers.lookup b = some header →
    header.hash = b ∧ (N.replicas i).sync.heldBlock b header ∈ issued
  /-- So is every orphan. -/
  orphans : ∀ i b orphan, (N.replicas i).sync.orphans.lookup b = some orphan →
    orphan.header.hash = b ∧ (N.replicas i).sync.heldBlock b orphan.header ∈ issued
  /-- And every block that has been sent. -/
  sent : ∀ batch, .blocks batch ∈ N.sent → ∀ block ∈ batch, block ∈ issued
  /-- Every executor is on the selected chain of its tip. -/
  onChain : ∀ i, (N.replicas i).node.OnSelectedChain setup.executor (issuedBodies issued)
  /-- With nothing left to note, this is the chain that the DAG selects. -/
  settled : ∀ i, (N.replicas i).sync.accepted = [] →
    (N.replicas i).executor.tip = (N.replicas i).sync.dag.virtualSelectedParent
  /-- The same block at a height leaves the same there. -/
  agree : ∀ i j height b, (N.replicas i).executor.hashAt height = some b →
    (N.replicas j).executor.hashAt height = some b →
    (N.replicas i).executor.results.lookup height = (N.replicas j).executor.results.lookup height

/-- The invariant of a run. -/
structure Inv (P : BlockPayload → Prop) (bodies : BodyStore) (codeOf : B256 → Bytecode)
    (N : Network ι) : Prop where
  kept : ∀ i, (N.replicas i).Kept setup.genesis P bodies codeOf setup.executor
  k : ∀ i, (N.replicas i).sync.dag.k = setup.k
  limit : ∀ i, (N.replicas i).sync.dag.mergesetSizeLimit = setup.mergesetSizeLimit
  sent : ∀ message ∈ N.sent, message.Honest setup.genesis.hash P

variable {setup} {P : BlockPayload → Prop} {bodies : BodyStore} {codeOf : B256 → Bytecode}
  {N : Network ι}

omit [TxCodec] in
/-- Two nodes hold no two blocks of one hash. -/
theorem Inv.noCollision (hnames : Names P) (h : N.Inv setup P bodies codeOf) (i j : ι) :
    NoCollision (N.replicas i).sync.dag (N.replicas j).sync.dag := by
  intro b header header' hl hl'
  have hi := (h.kept i).genuine
  have hj := (h.kept j).genuine
  have hsame := hnames _ _ (hi.dag hl) (hj.dag hl') ((hi.dag_key hl).trans (hj.dag_key hl').symm)
  exact congrArg BlockPayload.header hsame

/-- **What the invariant guarantees.** -/
theorem Inv.safe (hcode : CodeByHash codeOf) (hstart : Start codeOf setup.executor)
    {issued : List BlockPayload} (hnames : Names (· ∈ issued))
    (h : N.Inv setup (· ∈ issued) (issuedBodies issued) codeOf) : N.Safe setup issued where
  stored i _ _ hl := ⟨(h.kept i).genuine.dag_key hl, (h.kept i).genuine.dag hl⟩
  orphans i _ _ hl := ⟨(h.kept i).genuine.orphan_key hl, (h.kept i).genuine.orphans hl⟩
  sent batch hmem := h.sent _ hmem
  onChain i := (h.kept i).node.onSelectedChain hcode hstart
  settled i := (h.kept i).settled
  agree i j _ _ hb hb' := by
    refine (h.kept i).node.outcome_eq hcode hstart (h.kept j).node ?_ ?_
      (h.noCollision hnames i j) hb hb'
    · exact (h.k i).trans (h.k j).symm
    · exact (h.limit i).trans (h.limit j).symm

variable [DecidableEq ι]

/-- What is asked of an event for the invariant to go on. -/
def Keeps (P : BlockPayload → Prop) (N : Network ι) : NetworkEvent ι → Prop
  | .call _ (.message _ message _) => message ∈ N.sent
  | .call _ (.localBlock block) => P block
  | .call _ _ => True
  | .note node =>
    (N.replicas node).noteChanges.2.isOk = true ∧
      (N.replicas node).sync.dag.divergence (N.replicas node).executor.tip
        (N.replicas node).sync.dag.virtualSelectedParent ≤ maxReorgWalk

/-- **A call** to one node. -/
theorem Inv.call (hledger : Ledger setup.genesis P bodies) (hcode : CodeByHash codeOf)
    (hstart : Start codeOf setup.executor) (h : N.Inv setup P bodies codeOf) (node : ι)
    {call : SyncCall} (hcall : call.Honest setup.genesis.hash P) :
    (N.step (.call node call)).Inv setup P bodies codeOf := by
  have hone := h.kept node
  obtain ⟨headers, hgrown⟩ := DagSync.grown_step (S := (N.replicas node).sync) call
  obtain ⟨-, hk, hlimit⟩ := addBlocks_fixed headers (N.replicas node).sync.dag
  have hat : ∀ i, (N.step (.call node call)).replicas i
      = if i = node then { N.replicas node with sync := (N.replicas node).sync.step call }
        else N.replicas i := by
    intro i
    exact Function.update_apply _ _ _ _
  -- only `node` changes, and by a step that keeps what it had
  refine ⟨fun i => ?_, fun i => ?_, fun i => ?_, fun message hmem => ?_⟩
  · rw [hat]
    split
    · exact hone.call hledger hcode hstart hcall
    · exact h.kept i
  · rw [hat]
    split
    · show ((N.replicas node).sync.step call).dag.k = _
      rw [hgrown, hk, h.k]
    · exact h.k i
  · -- the limits are fixed at the start
    rw [hat]
    split
    · show ((N.replicas node).sync.step call).dag.mergesetSizeLimit = _
      rw [hgrown, hlimit, h.limit]
    · exact h.limit i
  · obtain hold | hnew := List.mem_append.mp hmem
    · exact h.sent message hold
    · -- what a node says is honest
      obtain ⟨peer, hsent⟩ := mem_sentMessages.mp hnew
      have hhonest := hone.genuine.honest_call call _ hsent
      rw [hone.network] at hhonest
      exact hhonest

/-- **Noting changes** at one node. -/
theorem Inv.note (hledger : Ledger setup.genesis P bodies) (hcode : CodeByHash codeOf)
    (hstart : Start codeOf setup.executor) (h : N.Inv setup P bodies codeOf) {node : ι}
    (hlegal : N.Keeps P (.note node)) : (N.step (.note node)).Inv setup P bodies codeOf := by
  -- a note touches one replica
  have hat : ∀ i, (N.step (.note node)).replicas i
      = if i = node then (N.replicas node).noteChanges.1 else N.replicas i := by
    intro i
    exact Function.update_apply _ _ _ _
  have hsync := (N.replicas node).sync_noteChanges
  refine ⟨fun i => ?_, fun i => ?_, fun i => ?_, h.sent⟩
  · rw [hat]
    split
    · exact ((h.kept node).noteChanges hledger hcode hstart hlegal.2 hlegal.1).1
    · exact h.kept i
  · rw [hat]
    split
    · -- nor does noting touch the sync state
      rw [hsync]
      exact h.k node
    · exact h.k i
  · rw [hat]
    split
    · rw [hsync]
      exact h.limit node
    · exact h.limit i

/-- **Every event keeps the invariant.** -/
theorem Inv.step (hledger : Ledger setup.genesis P bodies) (hcode : CodeByHash codeOf)
    (hstart : Start codeOf setup.executor) (h : N.Inv setup P bodies codeOf)
    {event : NetworkEvent ι} (hlegal : N.Keeps P event) :
    (N.step event).Inv setup P bodies codeOf := by
  cases event with
  | note node => exact h.note hledger hcode hstart hlegal
  | call node call =>
    refine h.call hledger hcode hstart node ?_
    -- each call that a legal network makes is honest
    cases call with
    | connect peer => exact trivial
    | disconnect peer => exact trivial
    | tick now => exact trivial
    | message peer message now => exact h.sent message hlegal
    | localBlock block => exact hlegal

omit [DecidableEq ι] in
/-- The network at the start. -/
theorem inv_start (hledger : Ledger setup.genesis P bodies) (hcode : CodeByHash codeOf)
    (hgenesis : WellCoded codeOf setup.genesisState) :
    setup.start.Inv setup P bodies codeOf := by
  have hvalid := new_valid setup.genesis setup.k setup.mergesetSizeLimit
  refine ⟨fun i => ⟨?_, rfl, ?_, ?_, ?_, ?_⟩, fun _ => rfl, fun _ => rfl, ?_⟩
  · exact DagSync.genuine_new hledger.genesis
  · exact Node.nodeInv_new hcode setup.params hgenesis setup.genesis setup.k
      setup.mergesetSizeLimit
  · exact fun b hb => absurd hb List.not_mem_nil
  · intro b hb _
    -- the only header is genesis, whose body is the issued one
    obtain ⟨header, hl⟩ := Maps.mem_iff_exists_lookup.mp hb
    obtain ⟨rfl, -⟩ := DagStore.lookup_new hl
    exact (hledger.body _ hledger.genesis).symm
  · intro _
    have hvsp := hvalid.virtualSelectedParent_mem
    exact (Finset.mem_singleton.mp hvsp).symm
  · -- nothing has been sent
    exact fun message hmem => absurd hmem List.not_mem_nil

/-! ### Runs -/

omit [HeaderHash] [DecidableEq ι] in
/-- The blocks mined by an event of the run have been issued. -/
theorem keeps_of_mem {events : List (NetworkEvent ι)} {event : NetworkEvent ι}
    (hmem : event ∈ events) (hdelivers : N.Delivers event)
    (hnote : ∀ node, event = .note node → N.Keeps (· ∈ setup.issued events) (.note node)) :
    N.Keeps (· ∈ setup.issued events) event := by
  cases event with
  | note node => exact hnote node rfl
  | call node call =>
    cases call with
    | message peer message now => exact hdelivers
    -- a block handed in is among the issued
    | localBlock block =>
      exact List.mem_cons_of_mem _ (List.mem_filterMap.mpr ⟨_, hmem, rfl⟩)
    | connect peer => exact trivial
    | disconnect peer => exact trivial
    | tick now => exact trivial

/-- A run with everything that is assumed of its events. -/
theorem inv_throughout (hcode : CodeByHash codeOf) (hgenesis : WellCoded codeOf setup.genesisState)
    {events : List (NetworkEvent ι)} (hnames : Names (· ∈ setup.issued events))
    (hlen : (setup.issued events).length ≤ maxReorgWalk)
    (hdelivers : Runs.Each step Delivers setup.start events)
    (hsucceeds : Runs.Each step Succeeds setup.start events) :
    Runs.Throughout step
      (Inv setup (· ∈ setup.issued events) (issuedBodies (setup.issued events)) codeOf)
      setup.start events := by
  have hledger := ledger_of_issued hnames List.mem_cons_self
  have hstart : Start codeOf setup.executor := start_new setup.genesis.hash hgenesis
  -- every event of the run is one of the list
  have hmem : Runs.Each step (fun _ event => event ∈ events) setup.start events :=
    Runs.each_of_mem (fun _ _ h => h) setup.start
  refine ((hdelivers.and hsucceeds).and hmem).throughout (fun N event h hlegal => ?_)
    (inv_start hledger hcode hgenesis)
  obtain ⟨⟨hdelivers, hsucceeds⟩, hmem⟩ := hlegal
  refine h.step hledger hcode hstart (keeps_of_mem hmem hdelivers ?_)
  -- a note reaches back no further than all blocks issued
  rintro node rfl
  exact ⟨hsucceeds, ((h.kept node).divergence_le fun _ hblock => hblock).trans hlen⟩

/-- **A network is safe, whatever is delivered when.** In every run in which a hash names at most
one block and no node fails, every node holds mined blocks only, unaltered, and nodes with the same
block at a height have recorded the same for it. -/
theorem network_safety (hcode : CodeByHash codeOf) (hgenesis : WellCoded codeOf setup.genesisState)
    (events : List (NetworkEvent ι)) (hnames : Names (· ∈ setup.issued events))
    (hlen : (setup.issued events).length ≤ maxReorgWalk)
    (hdelivers : Runs.Each step Delivers setup.start events)
    (hsucceeds : Runs.Each step Succeeds setup.start events) :
    Runs.Throughout step (Safe setup (setup.issued events)) setup.start events :=
  (inv_throughout hcode hgenesis hnames hlen hdelivers hsucceeds).imp fun _ h =>
    h.safe hcode (start_new setup.genesis.hash hgenesis) hnames

/-- Every record of every node is still there. -/
def Unpruned (N : Network ι) : Prop := ∀ i, (N.replicas i).executor.Unpruned

/-- An event leaves all records there, and does not fail, while the chains are short. -/
theorem Inv.unpruned (hcode : CodeByHash codeOf) (hstart : Start codeOf setup.executor)
    {issued : List BlockPayload} (hlen : issued.length ≤ maxReorgWalk)
    (hwindow : issued.length ≤ setup.params.pruningWindowBlocks + 1)
    (h : N.Inv setup (· ∈ issued) bodies codeOf) (hunpruned : N.Unpruned)
    (event : NetworkEvent ι) : N.Succeeds event ∧ (N.step event).Unpruned := by
  cases event with
  | call node call =>
    refine ⟨trivial, fun i => ?_⟩
    -- a call leaves the executors alone
    show (Function.update N.replicas node _ i).executor.Unpruned
    rw [Function.update_apply]
    split
    · exact hunpruned node
    · exact hunpruned i
  | note node =>
    -- a note executes a chain within the pruning window
    have hone := h.kept node
    have hheight := hone.selectedHeight_lt fun _ hblock => hblock
    obtain ⟨hok, hfull⟩ := hone.noteChanges_isOk hcode hstart (hunpruned node)
      ((hone.divergence_le fun _ hblock => hblock).trans hlen)
      (Nat.le_of_lt_succ (hheight.trans_le hwindow))
    refine ⟨hok, fun i => ?_⟩
    show (Function.update N.replicas node _ i).executor.Unpruned
    rw [Function.update_apply]
    split
    · exact hfull
    · exact hunpruned i

/-- A short run, in which nothing has been pruned. -/
theorem unpruned_throughout (hcode : CodeByHash codeOf)
    (hgenesis : WellCoded codeOf setup.genesisState) {events : List (NetworkEvent ι)}
    (hnames : Names (· ∈ setup.issued events)) (hlen : (setup.issued events).length ≤ maxReorgWalk)
    (hwindow : (mined events).length ≤ setup.params.pruningWindowBlocks)
    (hdelivers : Runs.Each step Delivers setup.start events) :
    Runs.Throughout step (fun N =>
      N.Inv setup (· ∈ setup.issued events) (issuedBodies (setup.issued events)) codeOf ∧
        N.Unpruned) setup.start events := by
  have hledger := ledger_of_issued hnames List.mem_cons_self
  have hstart : Start codeOf setup.executor := start_new setup.genesis.hash hgenesis
  have hmem : Runs.Each step (fun _ event => event ∈ events) setup.start events :=
    Runs.each_of_mem (fun _ _ h => h) setup.start
  refine (hdelivers.and hmem).throughout (fun N event h hlegal => ?_)
    ⟨inv_start hledger hcode hgenesis, fun _ => rfl⟩
  -- the step keeps the invariant, since it succeeds and reaches back within the guard
  obtain ⟨hsucceeds, hunpruned⟩ :=
    h.1.unpruned hcode hstart hlen (Nat.succ_le_succ hwindow) h.2 event
  refine ⟨h.1.step hledger hcode hstart (keeps_of_mem hlegal.2 hlegal.1 ?_), hunpruned⟩
  rintro node rfl
  exact ⟨hsucceeds, ((h.1.kept node).divergence_le fun _ hblock => hblock).trans hlen⟩

/-- **A short run never fails.** If no more blocks are mined than undo records are kept, no node
ever fails to follow its selected chain, however often the chains of the nodes change. -/
theorem network_never_fails (hcode : CodeByHash codeOf)
    (hgenesis : WellCoded codeOf setup.genesisState) (events : List (NetworkEvent ι))
    (hnames : Names (· ∈ setup.issued events))
    (hlen : (setup.issued events).length ≤ maxReorgWalk)
    (hwindow : (mined events).length ≤ setup.params.pruningWindowBlocks)
    (hdelivers : Runs.Each step Delivers setup.start events) :
    Runs.Each step Succeeds setup.start events ∧
      Runs.Throughout step (Safe setup (setup.issued events)) setup.start events := by
  have hstart : Start codeOf setup.executor := start_new setup.genesis.hash hgenesis
  have hinv := unpruned_throughout hcode hgenesis hnames hlen hwindow hdelivers
  refine ⟨hinv.each fun N event h => ?_, hinv.imp fun N h => h.1.safe hcode hstart hnames⟩
  exact (h.1.unpruned hcode hstart hlen (Nat.succ_le_succ hwindow) h.2 event).1

end Network

/-! ### Two nodes -/

namespace Wallet

open Sample

theorem changes_of_transact {params : ChainParams} {ctx : ChainBlockCtx} {miner : Address}
    {tx : ChainTx} {s : WorldState} {result : ExecutionResult} {changes : EvmState}
    (h : Evm.transact params ctx miner tx s = some (result, changes)) :
    changes = Finmap.singleton tx.signer (paid ctx (infoOf (s.account tx.signer))) := by
  change (if Payable ctx tx (infoOf (s.account tx.signer)) then _ else none) = _ at h
  split at h
  · exact (Prod.mk.inj (Option.some.inj h)).2.symm
  · cases h

theorem eq_paid_of_transact {params : ChainParams} {ctx : ChainBlockCtx} {miner : Address}
    {tx : ChainTx} {s : WorldState} {result : ExecutionResult} {changes : EvmState} {a : Address}
    {entry : RevmAccount} (h : Evm.transact params ctx miner tx s = some (result, changes))
    (hl : changes.lookup a = some entry) : entry = paid ctx (infoOf (s.account a)) := by
  rw [changes_of_transact h] at hl
  by_cases ha : a = tx.signer
  · rw [ha, Finmap.lookup_singleton_eq] at hl
    rw [ha, Option.some.inj hl]
  · have hmem := Maps.mem_of_lookup hl
    rw [Finmap.mem_singleton] at hmem
    exact absurd hmem ha

/-- No account has code. -/
theorem wallet_codeByHash : CodeByHash fun _ => [] := by
  refine ⟨rfl, fun params ctx miner tx s s' haccounts _ _ => ?_, ?_, ?_⟩
  · have hsame : s'.account tx.signer = s.account tx.signer :=
      congrArg (Finmap.lookup tx.signer) haccounts
    show (if Payable ctx tx (infoOf (s'.account tx.signer)) then _ else none)
      = (if Payable ctx tx (infoOf (s.account tx.signer)) then _ else none)
    rw [hsame]
  · intro params ctx miner tx s result changes a entry bytes h hl hcode
    rw [eq_paid_of_transact h hl] at hcode
    cases hcode
  · intro params ctx miner tx s result changes a entry h hl _
    rw [eq_paid_of_transact h hl]
    rfl

theorem wallet_wellCoded : WellCoded (fun _ => []) funded :=
  ⟨fun _ _ h => absurd (Maps.mem_of_lookup h) Finmap.notMem_empty,
    fun _ _ _ h => absurd rfl h⟩

/-- Two nodes that accept every header. -/
def pair : NetworkSetup (Fin 2) where
  genesis := root
  k := 2
  mergesetSizeLimit := 10
  params := params
  genesisState := funded
  gate := fun _ _ => .ok ()
  maxOrphans := fun _ => 10
  requestTimeoutMs := fun _ => 1000

/-- A block on genesis with two transactions. -/
def paying : BlockPayload := ⟨block 1 [0] 0x2000ffff, [[0], [1]]⟩

/-- The first node mines a block, which the second asks for and gets. -/
def handedOver : List (NetworkEvent (Fin 2)) :=
  [.call 0 (.connect 1), .call 1 (.connect 0),
    .call 0 (.message 1 (.version protocolVersion (hashOf 0) [hashOf 0]) 5),
    .call 1 (.message 0 (.version protocolVersion (hashOf 0) [hashOf 0]) 5),
    .call 0 (.localBlock paying), .note 0,
    .call 1 (.message 0 (.invBlocks [hashOf 1]) 9),
    .call 0 (.message 1 (.getBlocks [hashOf 1]) 9),
    .call 1 (.message 0 (.blocks [paying]) 9), .note 1]

/-- Two blocks of a heavier chain on genesis. -/
def rival : BlockPayload := ⟨block 2 [0] 0x2000ffff, [[0]]⟩

def onRival : BlockPayload := ⟨block 3 [2] 0x2000ffff, [[1]]⟩

/-- Each node mines on genesis. The first one has executed its block when it gets those of the
other, so that it takes its own back. -/
def outweighed : List (NetworkEvent (Fin 2)) :=
  [.call 0 (.connect 1), .call 1 (.connect 0),
    .call 0 (.message 1 (.version protocolVersion (hashOf 0) [hashOf 0]) 5),
    .call 1 (.message 0 (.version protocolVersion (hashOf 0) [hashOf 0]) 5),
    .call 0 (.localBlock paying), .note 0,
    .call 1 (.localBlock rival), .call 1 (.localBlock onRival), .note 1,
    .call 0 (.message 1 (.invBlocks [hashOf 2]) 9), .call 0 (.message 1 (.invBlocks [hashOf 3]) 9),
    .call 1 (.message 0 (.getBlocks [hashOf 2]) 9), .call 1 (.message 0 (.getBlocks [hashOf 3]) 9),
    .call 0 (.message 1 (.blocks [rival]) 9), .call 0 (.message 1 (.blocks [onRival]) 9), .note 0]

end Wallet

namespace Network

open Wallet Sample

theorem handedOver_names : Names (· ∈ pair.issued handedOver) := by
  have h : ∀ block ∈ pair.issued handedOver, ∀ block' ∈ pair.issued handedOver,
    block.hash = block'.hash → block = block' := by decide +kernel
  exact fun block block' hb hb' => h block hb block' hb'

/-- Both nodes have recorded the same for the block. -/
theorem network_safety_handedOver :
    ((Runs.after step pair.start handedOver).replicas 0).executor.results.lookup 1
      = ((Runs.after step pair.start handedOver).replicas 1).executor.results.lookup 1 :=
  (network_safety wallet_codeByHash wallet_wellCoded handedOver handedOver_names (by decide +kernel)
    (by decide +kernel) (by decide +kernel)).last.agree 0 1 1 (hashOf 1) (by decide +kernel)
    (by decide +kernel)

theorem outweighed_names : Names (· ∈ pair.issued outweighed) := by
  have h : ∀ block ∈ pair.issued outweighed, ∀ block' ∈ pair.issued outweighed,
    block.hash = block'.hash → block = block' := by decide +kernel
  exact fun block block' hb hb' => h block hb block' hb'

/-- Neither node fails, although the first one takes a block back, and both have recorded the same
in the end. -/
theorem network_never_fails_outweighed :
    ((Runs.after step pair.start (outweighed.take 6)).replicas 0).executor.tip = hashOf 1 ∧
      ((Runs.after step pair.start outweighed).replicas 0).executor.tip = hashOf 3 ∧
      Runs.Each step Succeeds pair.start outweighed ∧
      ((Runs.after step pair.start outweighed).replicas 0).executor.results.lookup 1
        = ((Runs.after step pair.start outweighed).replicas 1).executor.results.lookup 1 := by
  obtain ⟨hsucceeds, hsafe⟩ := network_never_fails wallet_codeByHash wallet_wellCoded outweighed
    outweighed_names (by decide +kernel) (by decide +kernel) (by decide +kernel)
  refine ⟨by decide +kernel, by decide +kernel, hsucceeds, ?_⟩
  exact hsafe.last.agree 0 1 1 (hashOf 2) (by decide +kernel) (by decide +kernel)

end Network

end Chainname
