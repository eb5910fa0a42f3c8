import Chainname.Testkit.Simulation

/-!
# What each operation of the simulation does

Most operations touch traffic and nodes only (`OnlyTraffic`); noting changes touches what is
measured of the run, and nodes (`OnlyNoted`). The loops come with a rule each: what one sent message
and one closed connection keep, dispatching keeps (`dispatch_induct`).

`Reached` is what a caller of the simulation can get to. What holds at the start and is kept by
handling the next event, by suspending or resuming mining, and by letting time pass up to the next
event, holds of all of it (`Reached.rule`).
-/

namespace Chainname.Testkit

theorem nodeIndex_of_lt {peer n : ℕ} (h : peer < n) : nodeIndex peer n = some ⟨peer, h⟩ := dif_pos h

theorem nodeIndex_of_not_lt {peer n : ℕ} (h : ¬ peer < n) : nodeIndex peer n = none := dif_neg h

namespace Simulation

variable {config : SimConfig} {sim sim' sim'' : Simulation config}

/-- Nothing but nodes, the queue, the generator and the count of lost messages has changed. -/
def OnlyTraffic (sim sim' : Simulation config) : Prop :=
  sim' = { sim with
    nodes := sim'.nodes, queue := sim'.queue, rng := sim'.rng, dropped := sim'.dropped }

/-- Nothing but nodes and what is measured of the run has changed. -/
def OnlyNoted (sim sim' : Simulation config) : Prop :=
  sim' = { sim with
    nodes := sim'.nodes, reorgs := sim'.reorgs, deepestReorg := sim'.deepestReorg,
    lastChangeMs := sim'.lastChangeMs, propagation := sim'.propagation, delays := sim'.delays }

/-- Nodes keep their miner, their wallets and the nonces of these. -/
def SameOwners (sim sim' : Simulation config) : Prop :=
  ∀ i, sim'.nodes i = { sim.nodes i with toReplica := (sim'.nodes i).toReplica }

theorem SameOwners.trans (h : sim.SameOwners sim') (h' : sim'.SameOwners sim'') :
    sim.SameOwners sim'' := by
  intro i
  rw [h' i, h i]

theorem SameOwners.of_update {node : Fin config.nodes} {n : Replica}
    (h : sim'.nodes = Function.update sim.nodes node { sim.nodes node with toReplica := n }) :
    sim.SameOwners sim' := by
  intro i
  rw [h, Function.update_apply]
  split
  · next hi => rw [hi]
  · rfl

theorem SameOwners.miner (h : sim.SameOwners sim') (i : Fin config.nodes) :
    (sim'.nodes i).miner = (sim.nodes i).miner := by
  rw [h i]

theorem OnlyTraffic.trans (h : sim.OnlyTraffic sim') (h' : sim'.OnlyTraffic sim'') :
    sim.OnlyTraffic sim'' := by
  unfold OnlyTraffic at h h' ⊢
  rw [h', h]

theorem OnlyTraffic.nowMs (h : sim.OnlyTraffic sim') : sim'.nowMs = sim.nowMs := by
  rw [h]

theorem OnlyTraffic.mined (h : sim.OnlyTraffic sim') : sim'.mined = sim.mined := by
  rw [h]

theorem OnlyNoted.mined (h : sim.OnlyNoted sim') : sim'.mined = sim.mined := by
  rw [h]

theorem OnlyNoted.nowMs (h : sim.OnlyNoted sim') : sim'.nowMs = sim.nowMs := by
  rw [h]

theorem OnlyNoted.queue (h : sim.OnlyNoted sim') : sim'.queue = sim.queue := by
  rw [h]

/-! ### Dispatching -/

section Dispatch

variable {sender : Fin config.nodes}

theorem nodes_scheduleTick (node : Fin config.nodes) : (sim.scheduleTick node).nodes = sim.nodes := rfl

theorem mined_scheduleTick (node : Fin config.nodes) : (sim.scheduleTick node).mined = sim.mined := rfl

theorem onlyTraffic_setSync (node : Fin config.nodes) (S : DagSync) :
    sim.OnlyTraffic (sim.setSync node S) := rfl

/-- The longest a delivery, the next block or the next tick can be ahead, in milliseconds. -/
def leadMs (config : SimConfig) : ℕ :=
  max (max 1 (config.blockIntervalMs.toNat * config.nodes * 2))
    (max config.tickIntervalMs.toNat
      (max config.link.minLatencyMs.toNat config.link.maxLatencyMs.toNat))

/-- A message is lost, or it is under way and takes at least the least latency. -/
theorem send_cases (sim : Simulation config) (sender receiver : Fin config.nodes)
    (message : Message) :
    (∃ rng, sim.send sender receiver message
      = { sim with rng := rng, dropped := sim.dropped + 1 }) ∨
    ∃ rng latency, (config.link.minLatencyMs.toNat ≤ latency ∧ latency ≤ leadMs config) ∧
      sim.send sender receiver message
        = { sim with rng := rng }.push (sim.nowMs + latency) (.deliver receiver sender message) := by
  unfold send
  dsimp only
  split
  · -- lost on the way
    exact Or.inl ⟨_, rfl⟩
  · -- sent: the latency lies between the two bounds of the link
    refine Or.inr ⟨_, _, ⟨?_, ?_⟩, rfl⟩
    · by_cases h : config.link.minLatencyMs ≤ config.link.maxLatencyMs
      · exact UInt64.le_iff_toNat_le.mp (Lcg.between_bounds _ h).1
      · -- an empty range of latencies gives the lower one
        unfold Lcg.between
        rw [if_pos (UInt64.le_of_lt (UInt64.not_le.mp h))]
    · exact (Lcg.between_le_max _ _ _).trans ((le_max_right _ _).trans (le_max_right _ _))

/-- The next block of a node is at least a millisecond away, and at most two of its intervals. -/
theorem scheduleNextMine_eq (sim : Simulation config) (node : Fin config.nodes) :
    ∃ rng delay, (1 ≤ delay ∧ delay ≤ leadMs config) ∧
      sim.scheduleNextMine node = { sim with rng := rng }.push (sim.nowMs + delay) (.mine node) := by
  refine ⟨_, _, ⟨le_max_right _ _, ?_⟩, rfl⟩
  -- a product that wraps is smaller than the product, so that the bound holds either way
  have hmean : (config.blockIntervalMs * UInt64.ofNat config.nodes).toNat
      ≤ config.blockIntervalMs.toNat * config.nodes := by
    rw [UInt64.toNat_mul]
    exact (Nat.mod_le _ _).trans (Nat.mul_le_mul_left _ (Nat.mod_le _ _))
  have hdrawn := sim.rng.between_le_max
    (config.blockIntervalMs * UInt64.ofNat config.nodes / 5)
    (config.blockIntervalMs * UInt64.ofNat config.nodes * 2)
  rw [UInt64.toNat_div, UInt64.toNat_mul] at hdrawn
  refine (max_le ?_ (le_max_left _ _)).trans (le_max_left _ _)
  refine (hdrawn.trans (max_le ?_ ?_)).trans (le_max_right _ _)
  · exact ((Nat.div_le_self _ _).trans hmean).trans (Nat.le_mul_of_pos_right _ (by decide))
  · exact (Nat.mod_le _ _).trans (Nat.mul_le_mul_right _ hmean)

theorem onlyTraffic_send (receiver : Fin config.nodes) (message : Message) :
    sim.OnlyTraffic (sim.send sender receiver message) := by
  obtain ⟨_, h⟩ | ⟨_, _, -, h⟩ := sim.send_cases sender receiver message
  · rw [h]
    rfl
  · rw [h]
    rfl

theorem onlyTraffic_disconnect (peer : PeerId) :
    sim.OnlyTraffic (sim.disconnect sender peer) := by
  unfold disconnect
  dsimp only
  split
  · rfl
  · rfl

/-- **Rule of dispatching.** What sending one of the messages and closing one of the connections
keep, dispatching keeps. -/
theorem dispatch_induct {P : Simulation config → Prop} {actions : List Action}
    (hsend : ∀ sim (receiver : Fin config.nodes) message,
      Action.send receiver.val message ∈ actions → P sim → P (sim.send sender receiver message))
    (hclose : ∀ sim peer reason, Action.disconnect peer reason ∈ actions → P sim →
      P (sim.disconnect sender peer))
    (h : P sim) : P (sim.dispatch sender actions) := by
  unfold dispatch
  -- induction on the actions still to be performed
  have hfold : ∀ l : List Action, l ⊆ actions → ∀ sim, P sim →
      P (l.foldl (fun sim action => sim.perform sender action) sim) := by
    intro l
    induction l with
    | nil => exact fun _ _ h => h
    | cons action l ih =>
      intro hsub sim h
      have hmem := hsub List.mem_cons_self
      refine ih (fun _ hrest => hsub (List.mem_cons_of_mem action hrest)) _ ?_
      cases action with
      | send peer message =>
        unfold perform
        dsimp only
        by_cases hpeer : peer < config.nodes
        · rw [nodeIndex_of_lt hpeer]
          exact hsend sim ⟨peer, hpeer⟩ message hmem h
        · -- a peer that is no node gets nothing
          rw [nodeIndex_of_not_lt hpeer]
          exact h
      | disconnect peer reason => exact hclose sim peer reason hmem h
  exact hfold actions (List.Subset.refl _) sim h

theorem sameOwners_setSync (node : Fin config.nodes) (S : DagSync) :
    sim.SameOwners (sim.setSync node S) :=
  .of_update (n := { (sim.nodes node).toReplica with sync := S }) rfl

theorem sameOwners_disconnect (peer : PeerId) : sim.SameOwners (sim.disconnect sender peer) := by
  unfold disconnect
  dsimp only
  split
  · exact sameOwners_setSync sender _
  · exact (sameOwners_setSync sender _).trans (sameOwners_setSync _ _)

theorem sameOwners_dispatch (actions : List Action) :
    sim.SameOwners (sim.dispatch sender actions) := by
  refine dispatch_induct (P := fun sim' => sim.SameOwners sim') ?_
    (fun _ peer _ _ h => h.trans (sameOwners_disconnect peer)) fun _ => rfl
  intro sim receiver message _ h
  refine h.trans fun i => ?_
  obtain ⟨_, hlost⟩ | ⟨_, _, -, hsend⟩ := sim.send_cases sender receiver message
  · rw [hlost]
  · rw [hsend]
    rfl

theorem onlyTraffic_dispatch (actions : List Action) :
    sim.OnlyTraffic (sim.dispatch sender actions) :=
  dispatch_induct (P := fun sim' => sim.OnlyTraffic sim')
    (fun _ receiver message _ h => h.trans (onlyTraffic_send receiver message))
    (fun _ peer _ _ h => h.trans (onlyTraffic_disconnect peer)) rfl

end Dispatch

/-! ### Noting changes -/

section Note

theorem recordPropagation_onlyNoted (hash : BlockHash) :
    sim.OnlyNoted (sim.recordPropagation hash) := by
  unfold recordPropagation
  dsimp only
  split
  · rfl
  · rfl

theorem OnlyNoted.trans (h : sim.OnlyNoted sim') (h' : sim'.OnlyNoted sim'') :
    sim.OnlyNoted sim'' := by
  unfold OnlyNoted at h h' ⊢
  rw [h', h]

/-- Recording touches no node. -/
theorem recordPropagations (hashes : List BlockHash) (sim : Simulation config) :
    sim.OnlyNoted (hashes.foldl recordPropagation sim) ∧
      (hashes.foldl recordPropagation sim).nodes = sim.nodes := by
  induction hashes generalizing sim with
  | nil => exact ⟨rfl, rfl⟩
  | cons hash hashes ih =>
    obtain ⟨honly, hnodes⟩ := ih (sim.recordPropagation hash)
    refine ⟨(recordPropagation_onlyNoted hash).trans honly, hnodes.trans ?_⟩
    unfold recordPropagation
    dsimp only
    split
    · rfl
    · rfl

variable [TxCodec] [Evm] [Trie] [FeeRule]

/-- **Noting changes** is what it is for the node. -/
theorem noteChanges_ok {node : Fin config.nodes} (h : sim.noteChanges node = .ok sim') :
    (sim.nodes node).toReplica.noteChanges.2.isOk = true ∧ sim.OnlyNoted sim' ∧
      sim'.nodes = Function.update sim.nodes node
        { sim.nodes node with toReplica := (sim.nodes node).toReplica.noteChanges.1 } := by
  unfold noteChanges at h
  dsimp only at h
  split at h
  · -- nothing accepted, nothing noted
    next hnil =>
    obtain rfl := Except.ok.inj h
    have hnoted : (sim.nodes node).toReplica.noteChanges = ((sim.nodes node).toReplica, .ok 0) := by
      rw [Replica.noteChanges_eq, if_pos hnil]
    refine ⟨by rw [hnoted]; rfl, rfl, ?_⟩
    rw [hnoted]
    exact (Function.update_eq_self node sim.nodes).symm
  · -- the propagation records leave the nodes alone
    have hrecorded := recordPropagations (sim.nodes node).sync.accepted
      { sim with lastChangeMs := sim.nowMs }
    generalize ((sim.nodes node).sync.accepted).foldl recordPropagation
      { sim with lastChangeMs := sim.nowMs } = recorded at h hrecorded
    obtain ⟨honly, hnodes⟩ := hrecorded
    change recorded.nodes = sim.nodes at hnodes
    rw [hnodes] at h
    split at h
    · cases h
    · -- and the noting succeeded
      next depth hdepth =>
      obtain rfl := Except.ok.inj h
      refine ⟨by rw [hdepth]; rfl, ?_, rfl⟩
      unfold OnlyNoted at honly ⊢
      rw [honly]

/-- Noting changes fails where it does for the node. -/
theorem noteChanges_isOk {node : Fin config.nodes}
    (h : (sim.nodes node).toReplica.noteChanges.2.isOk = true) :
    ∃ sim', sim.noteChanges node = .ok sim' := by
  unfold noteChanges
  dsimp only
  split
  · exact ⟨_, rfl⟩
  · -- the records before the noting leave the nodes alone
    have hnodes := (recordPropagations (sim.nodes node).sync.accepted
      { sim with lastChangeMs := sim.nowMs }).2
    change _ = sim.nodes at hnodes
    rw [hnodes]
    split
    · next hresult =>
      rw [hresult] at h
      exact absurd h Bool.false_ne_true
    · exact ⟨_, rfl⟩

end Note

/-! ### Mining -/

section Mine

/-- Signing transactions moves the nonces of one node and the generator. -/
structure OnlyNonces (sim sim' : Simulation config) : Prop where
  traffic : sim.OnlyTraffic sim'
  queue : sim'.queue = sim.queue
  replica : ∀ i, (sim'.nodes i).toReplica = (sim.nodes i).toReplica
  miner : ∀ i, (sim'.nodes i).miner = (sim.nodes i).miner
  wallets : ∀ i, (sim'.nodes i).wallets = (sim.nodes i).wallets

theorem OnlyNonces.trans (h : sim.OnlyNonces sim') (h' : sim'.OnlyNonces sim'') :
    sim.OnlyNonces sim'' where
  traffic := h.traffic.trans h'.traffic
  queue := h'.queue.trans h.queue
  replica i := (h'.replica i).trans (h.replica i)
  miner i := (h'.miner i).trans (h.miner i)
  wallets i := (h'.wallets i).trans (h.wallets i)

variable [Signer]

theorem makeTransaction_onlyNonces (sim : Simulation config) (node : Fin config.nodes) :
    sim.OnlyNonces (sim.makeTransaction node).1 := by
  have hview : ∀ {γ : Type} (view : SimNode → γ),
      (∀ n nonces, view { n with nonces := nonces } = view n) → ∀ i,
        view ((sim.makeTransaction node).1.nodes i) = view (sim.nodes i) := by
    intro γ view hsame i
    show view (Function.update sim.nodes node _ i) = _
    rw [Function.update_apply]
    split
    · next hi => rw [hi, hsame]
    · rfl
  exact ⟨rfl, rfl, hview SimNode.toReplica fun _ _ => rfl, hview SimNode.miner fun _ _ => rfl,
    hview SimNode.wallets fun _ _ => rfl⟩

theorem makeTransactions_onlyNonces (node : Fin config.nodes) (count : ℕ) :
    ∀ sim : Simulation config, sim.OnlyNonces (makeTransactions node count sim).1 := by
  induction count with
  | zero => exact fun _ => ⟨rfl, rfl, fun _ => rfl, fun _ => rfl, fun _ => rfl⟩
  | succ count ih => exact fun sim => (makeTransaction_onlyNonces sim node).trans (ih _)

omit [Signer] in
/-- **What the search finds** is the header under some nonce, and it meets the target. -/
theorem searchNonce_eq_some {pow : PowHash} {header found : Header} {tries : ℕ} :
    ∀ {nonce : UInt64}, searchNonce pow header tries nonce = some found →
      (∃ nonce, found = { header with nonce := nonce }) ∧ (pow.hashHeader found).val ≤ simTarget := by
  induction tries with
  | zero => exact fun h => nomatch h
  | succ tries ih =>
    intro nonce h
    unfold searchNonce at h
    split at h
    · next hle =>
      obtain rfl := Option.some.inj h
      exact ⟨⟨nonce, rfl⟩, hle⟩
    · exact ih h

omit [Signer] in
theorem minedHeader_eq_some {pow : PowHash} {node : Fin config.nodes} {header : Header}
    (h : sim.minedHeader pow node = some header) :
    (sim.nodes node).sync.dag.miningParents ≠ [] ∧
      (∃ nonce, header = { sim.template node with nonce := nonce }) ∧
      (pow.hashHeader header).val ≤ simTarget := by
  unfold minedHeader at h
  split at h
  · cases h
  · next hparents => exact ⟨hparents, searchNonce_eq_some h⟩

end Mine

/-! ### Events -/

section Handle

/-- A call to the network layer of a node, whose actions are dispatched. -/
def act [HeaderHash] (sim : Simulation config) (node : Fin config.nodes) (call : SyncCall) :
    Simulation config :=
  (sim.setSync node ((sim.nodes node).sync.step call)).dispatch node
    ((sim.nodes node).sync.call call).2

variable (sim) in
theorem onlyTraffic_act [HeaderHash] (node : Fin config.nodes) (call : SyncCall) :
    sim.OnlyTraffic (sim.act node call) :=
  (onlyTraffic_setSync node _).trans (onlyTraffic_dispatch _)

theorem sameOwners_act [HeaderHash] (node : Fin config.nodes) (call : SyncCall) :
    sim.SameOwners (sim.act node call) :=
  (sameOwners_setSync node _).trans (sameOwners_dispatch _)

variable [HeaderHash] [TxCodec] [Evm] [Trie] [FeeRule] [Signer] {pow : PowHash}

/-- The simulation when a node has mined a header and is about to be told. -/
def withMined (sim : Simulation config) (node : Fin config.nodes) : Simulation config :=
  let made := (makeTransactions node config.txsPerBlock sim).1
  { made with mined := made.mined + 1 }

/-- The block of a mined header. -/
def minedBlock (sim : Simulation config) (node : Fin config.nodes) (header : Header) :
    BlockPayload :=
  ⟨header, (makeTransactions node config.txsPerBlock sim).2⟩

/-- **What mining does**: nothing, or a header has been found and a block is handed to the node. -/
theorem mineOne_ok {node : Fin config.nodes} (h : sim.mineOne pow node = .ok sim') :
    sim.minedHeader pow node = none ∧ sim' = sim ∨
    ∃ header, sim.minedHeader pow node = some header ∧
      ((sim.withMined node).act node (.localBlock (sim.minedBlock node header))).noteChanges node
        = .ok sim' := by
  unfold mineOne at h
  split at h
  · next hnone => exact Or.inl ⟨hnone, (Except.ok.inj h).symm⟩
  · next header hheader => exact Or.inr ⟨header, hheader, h⟩

/-- Handling an event takes no time. -/
theorem nowMs_handle {kind : EventKind config.nodes} (h : sim.handle pow kind = .ok sim') :
    sim'.nowMs = sim.nowMs := by
  cases kind with
  -- the delivery's actions and its note keep the clock
  | deliver receiver sender message =>
    obtain ⟨-, hnoted, -⟩ := noteChanges_ok h
    exact hnoted.nowMs.trans (onlyTraffic_act _ receiver (.message sender.val message _)).nowMs
  | tick node =>
    obtain rfl := Except.ok.inj h
    exact (onlyTraffic_act _ node (.tick sim.nowMs)).nowMs
  | mine node =>
    unfold handle at h
    dsimp only at h
    split at h
    · cases hmine : sim.mineOne pow node with
      | error e =>
        rw [hmine] at h
        cases h
      | ok mined =>
        rw [hmine] at h
        obtain rfl := Except.ok.inj h
        show mined.nowMs = sim.nowMs
        -- a block mined and handed in keeps the clock as well
        obtain ⟨-, rfl⟩ | ⟨header, -, hnote⟩ := mineOne_ok hmine
        · rfl
        · obtain ⟨-, hnoted, -⟩ := noteChanges_ok hnote
          calc mined.nowMs
              = ((sim.withMined node).act node (.localBlock (sim.minedBlock node header))).nowMs :=
                hnoted.nowMs
            _ = (sim.withMined node).nowMs := (onlyTraffic_act _ node _).nowMs
            _ = sim.nowMs := (makeTransactions_onlyNonces node config.txsPerBlock sim).traffic.nowMs
    · -- mining is disabled
      obtain rfl := Except.ok.inj h
      rfl

end Handle

/-! ### The start -/

/-- **Rule of the start.** What holds of nodes that have not met, and is kept by connecting two of
them and by scheduling what a node has ahead, holds at the start. -/
theorem new_induct [HeaderHash] [Trie] [FeeRule] [CodeHash] [Signer] {pow : PowHash}
    {P : Simulation config → Prop}
    (hinitial : ∀ genesisState, WorldState.loadGenesis (genesisAlloc config) = .ok genesisState →
      P (initial pow config genesisState))
    (hconnect : ∀ sim (i j : Fin config.nodes), P sim → P (sim.act i (.connect j.val)))
    (hschedule : ∀ sim (node : Fin config.nodes), P sim →
      P ((sim.scheduleNextMine node).scheduleTick node))
    (h : Simulation.new pow config = .ok sim) : P sim := by
  -- the two folds of the start, over connections and over duties
  have hfold : ∀ {α : Type} (f : Simulation config → α → Simulation config) (l : List α),
      (∀ sim a, P sim → P (f sim a)) → ∀ sim, P sim → P (l.foldl f sim) := by
    intro α f l hkeep
    induction l with
    | nil => exact fun _ h => h
    | cons a l ih => exact fun sim h => ih _ (hkeep sim a h)
  unfold Simulation.new at h
  cases hgenesis : WorldState.loadGenesis (genesisAlloc config) with
  | error e =>
    rw [hgenesis] at h
    cases h
  | ok genesisState =>
    rw [hgenesis] at h
    obtain rfl := Except.ok.inj h
    -- the duties of every node, after the connections
    refine hfold _ _ hschedule _ ?_
    exact hfold (fun sim (pair : Fin config.nodes × Fin config.nodes) => sim.connect pair.1 pair.2) _
      (fun sim pair => hconnect sim pair.1 pair.2) _ (hinitial genesisState hgenesis)

/-! ### Runs -/

/-- A block that has been mined, with who mined it when. -/
structure MinedBlock (n : ℕ) where
  node : Fin n
  time : ℕ
  block : BlockPayload

/-- The simulation when an event is about to be handled. -/
def due (sim : Simulation config) (event : Appointment (EventKind config.nodes))
    (queue : Agenda (EventKind config.nodes)) : Simulation config :=
  { sim with queue := queue, nowMs := event.time }

/-- The simulation when a message is about to be handed over. -/
def receiving (sim : Simulation config) : Simulation config :=
  { sim with delivered := sim.delivered + 1 }

section Reached

variable [HeaderHash] [TxCodec] [Evm] [Trie] [FeeRule] [Signer] {pow : PowHash}

/-- The block that is mined when an event is handled. -/
def minedNow (pow : PowHash) (sim : Simulation config) :
    EventKind config.nodes → List (MinedBlock config.nodes)
  | .mine node =>
    if sim.miningEnabled then
      (sim.minedHeader pow node).toList.map fun header =>
        ⟨node, sim.nowMs, sim.minedBlock node header⟩
    else []
  | _ => []

variable [CodeHash]

/-- What a caller of the simulation can get to, with the blocks mined so far: it handles events in
their order, suspends and resumes mining, and lets time pass up to the next event. -/
inductive Reached (pow : PowHash) :
    Simulation config → List (MinedBlock config.nodes) → Prop
  | start {sim : Simulation config} (h : Simulation.new pow config = .ok sim) : Reached pow sim []
  | event {sim sim' : Simulation config} {log event queue} (h : Reached pow sim log)
    (hnext : sim.queue.next = some (event, queue))
    (hok : (sim.due event queue).handle pow event.what = .ok sim') :
    Reached pow sim' (log ++ minedNow pow (sim.due event queue) event.what)
  | suspend {sim : Simulation config} {log} (h : Reached pow sim log) (enabled : Bool) :
    Reached pow { sim with miningEnabled := enabled } log
  | wait {sim : Simulation config} {log} {time : ℕ} (h : Reached pow sim log)
    (hnow : sim.nowMs ≤ time)
    (hpending : ∀ event ∈ sim.queue.entries, time ≤ event.time) :
    Reached pow { sim with nowMs := time } log

/-- What holds at the start and is kept by all that happens. -/
structure Lasts (pow : PowHash) (I : Simulation config → List (MinedBlock config.nodes) → Prop) :
    Prop where
  start : ∀ {sim}, Simulation.new pow config = .ok sim → I sim []
  deliver : ∀ {sim sim' log event queue receiver sender message}, Reached pow sim log → I sim log →
    sim.queue.next = some (event, queue) → event.what = .deliver receiver sender message →
    ((sim.due event queue).receiving.act receiver
      (.message sender.val message event.time)).noteChanges receiver = .ok sim' → I sim' log
  tick : ∀ {sim log event queue node}, Reached pow sim log → I sim log →
    sim.queue.next = some (event, queue) → event.what = .tick node →
    I (((sim.due event queue).act node (.tick event.time)).scheduleTick node) log
  /-- Mining is suspended, or the node finds nothing. -/
  idle : ∀ {sim log event queue node}, Reached pow sim log → I sim log →
    sim.queue.next = some (event, queue) → event.what = .mine node →
    I ((sim.due event queue).scheduleNextMine node) log
  mine : ∀ {sim sim' log event queue node header}, Reached pow sim log → I sim log →
    sim.queue.next = some (event, queue) → event.what = .mine node →
    (sim.due event queue).minedHeader pow node = some header →
    (((sim.due event queue).withMined node).act node
      (.localBlock ((sim.due event queue).minedBlock node header))).noteChanges node = .ok sim' →
    I (sim'.scheduleNextMine node)
      (log ++ [⟨node, event.time, (sim.due event queue).minedBlock node header⟩])
  suspend : ∀ {sim log} enabled, I sim log → I { sim with miningEnabled := enabled } log
  wait : ∀ {sim log} {time : ℕ}, I sim log → sim.nowMs ≤ time →
    (∀ event ∈ sim.queue.entries, time ≤ event.time) → I { sim with nowMs := time } log

/-- **Rule of runs.** What lasts holds of all that is reached. -/
theorem Reached.rule {I : Simulation config → List (MinedBlock config.nodes) → Prop}
    (hI : Lasts pow I) {log : List (MinedBlock config.nodes)} (h : Reached pow sim log) :
    I sim log := by
  induction h with
  | start h => exact hI.start h
  | suspend _ enabled ih => exact hI.suspend enabled ih
  | wait _ hnow hpending ih => exact hI.wait ih hnow hpending
  -- an event: the case of the invariant is that of its kind
  | @event sim sim' log event queue h hnext hok ih =>
    cases hwhat : event.what with
    | deliver receiver sender message =>
      rw [hwhat] at hok
      rw [show minedNow pow (sim.due event queue) (.deliver receiver sender message) = [] from rfl,
        List.append_nil]
      exact hI.deliver h ih hnext hwhat hok
    | tick node =>
      rw [hwhat] at hok
      rw [show minedNow pow (sim.due event queue) (.tick node) = [] from rfl, List.append_nil,
        ← Except.ok.inj hok]
      exact hI.tick h ih hnext hwhat
    | mine node =>
      rw [hwhat] at hok
      unfold handle at hok
      unfold minedNow
      dsimp only at hok ⊢
      split at hok
      · -- mining is enabled: the search may fail, or find a header
        next henabled =>
        rw [if_pos henabled]
        cases hmine : (sim.due event queue).mineOne pow node with
        | error e =>
          rw [hmine] at hok
          cases hok
        | ok mined =>
          rw [hmine] at hok
          rw [← Except.ok.inj hok]
          obtain ⟨hnone, rfl⟩ | ⟨header, hsome, hnote⟩ := mineOne_ok hmine
          · rw [hnone, Option.toList_none, List.map_nil, List.append_nil]
            exact hI.idle h ih hnext hwhat
          · rw [hsome]
            exact hI.mine h ih hnext hwhat hsome hnote
      · -- disabled: only the next mining is scheduled
        next henabled =>
        rw [if_neg henabled, List.append_nil, ← Except.ok.inj hok]
        exact hI.idle h ih hnext hwhat

/-! ### The loops -/

omit [CodeHash] in
/-- An event that is due is handled. -/
theorem turn_eq_some {deadline : ℕ} {result : Except ExecutionError (Simulation config)}
    (h : sim.turn pow deadline = some result) :
    ∃ event queue, sim.queue.next = some (event, queue) ∧ event.time ≤ deadline ∧
      result = (sim.due event queue).handle pow event.what := by
  unfold turn at h
  split at h
  · cases h
  · next event queue hnext =>
    split at h
    · cases h
    · next hdue => exact ⟨event, queue, hnext, not_lt.mp hdue, (Option.some.inj h).symm⟩

omit [CodeHash] in
/-- Otherwise all events are after the deadline. -/
theorem turn_eq_none {deadline : ℕ} (h : sim.turn pow deadline = none) :
    ∀ event ∈ sim.queue.entries, deadline < event.time := by
  unfold turn at h
  intro event hmem
  split at h
  · -- no event at all
    next hnone =>
    rw [Agenda.next_eq_none_iff.mp hnone] at hmem
    exact absurd hmem List.not_mem_nil
  · next first queue hnext =>
    split at h
    · -- the first event is late, and with it every later one
      next hlate =>
      obtain rfl | hrest := (Agenda.mem_of_next hnext).mp hmem
      · exact hlate
      · exact hlate.trans_le (Agenda.before_of_next hnext event hrest).time_le
    · cases h

/-- A turn gets to a state that is not after the deadline. -/
theorem Reached.turn {log : List (MinedBlock config.nodes)} {deadline : ℕ}
    (h : Reached pow sim log) (hturn : sim.turn pow deadline = some (.ok sim')) :
    (∃ more, Reached pow sim' (log ++ more)) ∧ sim'.nowMs ≤ deadline := by
  obtain ⟨event, queue, hnext, hdue, hresult⟩ := turn_eq_some hturn
  exact ⟨⟨_, h.event hnext hresult.symm⟩, (nowMs_handle hresult.symm).trans_le hdue⟩

theorem Reached.runUntil {log : List (MinedBlock config.nodes)} {deadline n : ℕ}
    (h : Reached pow sim log) (hnow : sim.nowMs ≤ deadline)
    (hrun : sim.runUntil pow deadline n = some (.ok sim')) :
    ∃ more, Reached pow sim' (log ++ more) := by
  induction n generalizing sim log with
  | zero => cases hrun
  | succ n ih =>
    unfold Simulation.runUntil at hrun
    split at hrun
    · next hnone =>
      -- nothing is due any more, and the clock goes on to the deadline
      obtain rfl := Except.ok.inj (Option.some.inj hrun)
      refine ⟨[], ?_⟩
      rw [List.append_nil]
      exact h.wait hnow fun event hmem => (turn_eq_none hnone event hmem).le
    · cases Option.some.inj hrun
    · next hturn =>
      obtain ⟨⟨more, hnew⟩, hle⟩ := h.turn hturn
      obtain ⟨rest, hlast⟩ := ih hnew hle hrun
      exact ⟨more ++ rest, List.append_assoc log more rest ▸ hlast⟩

/-- **Running** gets to what is reached. -/
theorem Reached.runFor {log : List (MinedBlock config.nodes)} {n durationMs : ℕ}
    (h : Reached pow sim log) (hrun : sim.runFor pow n durationMs = some (.ok sim')) :
    ∃ more, Reached pow sim' (log ++ more) :=
  h.runUntil (Nat.le_add_right _ _) hrun

theorem Reached.quiesceUntil {log : List (MinedBlock config.nodes)} {deadline n : ℕ}
    {settled : Bool} (h : Reached pow sim log)
    (hrun : sim.quiesceUntil pow deadline n = some (.ok (sim', settled))) :
    ∃ more, Reached pow sim' (log ++ more) := by
  induction n generalizing sim log with
  | zero => cases hrun
  | succ n ih =>
    -- the three ways to stop keep the simulation
    have hstay : some (Except.ok (ε := ExecutionError) (sim, sim.settled))
        = some (.ok (sim', settled)) → ∃ more, Reached pow sim' (log ++ more) := by
      intro heq
      obtain ⟨rfl, -⟩ := Prod.mk.inj (Except.ok.inj (Option.some.inj heq))
      exact ⟨[], (List.append_nil log).symm ▸ h⟩
    unfold Simulation.quiesceUntil at hrun
    split at hrun
    · exact hstay hrun
    split at hrun
    · next hsettled =>
      rw [← hsettled] at hrun
      exact hstay hrun
    split at hrun
    · exact hstay hrun
    · cases Option.some.inj hrun
    · -- an event was handled: go on from its result
      next hturn =>
      obtain ⟨⟨more, hnew⟩, -⟩ := h.turn hturn
      obtain ⟨rest, hlast⟩ := ih hnew hrun
      exact ⟨more ++ rest, List.append_assoc log more rest ▸ hlast⟩

/-- **Quiescing** gets to what is reached. -/
theorem Reached.quiesce {log : List (MinedBlock config.nodes)} {n maxMs : ℕ} {settled : Bool}
    (h : Reached pow sim log) (hrun : sim.quiesce pow n maxMs = some (.ok (sim', settled))) :
    ∃ more, Reached pow sim' (log ++ more) := by
  unfold Simulation.quiesce at hrun
  obtain ⟨result, hloop, hresult⟩ := Option.map_eq_some_iff.mp hrun
  cases result with
  | error e => cases hresult
  | ok done =>
    obtain ⟨rfl, -⟩ := Prod.mk.inj (Except.ok.inj hresult)
    obtain ⟨more, hlast⟩ := (h.suspend false).quiesceUntil hloop
    exact ⟨more, hlast.suspend true⟩

end Reached

end Simulation

end Chainname.Testkit
