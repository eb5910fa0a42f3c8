import Chainname.Testkit.SimEffects

/-!
# The simulation runs the network

All that a simulation does to its nodes a network of full nodes can do (`Reached.covered`): the
messages under way have been sent, so what is delivered has been; a closed connection is two calls,
one at each end; and after a block has been mined or a message handed over, the node notes what has
changed, and does not fail. The simulation decides when and in which order, and what is lost. A
network leaves all of this open, so that what holds of every network holds of the simulation.
-/

namespace Chainname.Testkit

open Runs

section Legal

variable {ι : Type} [DecidableEq ι] [HeaderHash] [TxCodec] [Evm] [Trie] [FeeRule]

/-- What arrives has been sent, and no node fails. -/
def Legal (N : Network ι) (event : NetworkEvent ι) : Prop := N.Delivers event ∧ N.Succeeds event

omit [DecidableEq ι] [HeaderHash] [TxCodec] [Evm] [Trie] [FeeRule] in
theorem mined_append (events events' : List (NetworkEvent ι)) :
    Network.mined (events ++ events') = Network.mined events ++ Network.mined events' :=
  List.filterMap_append

end Legal

namespace Simulation

variable {config : SimConfig} {sim sim' : Simulation config} {N : Network (Fin config.nodes)}

/-- A network has the nodes of the simulation, and has sent what is under way. -/
structure Covers (N : Network (Fin config.nodes)) (sim : Simulation config) : Prop where
  replicas : ∀ i, N.replicas i = (sim.nodes i).toReplica
  sent : ∀ event ∈ sim.queue.entries, ∀ receiver sender message,
    event.what = .deliver receiver sender message → message ∈ N.sent

theorem Covers.congr (h : Covers N sim)
    (hreplicas : ∀ i, (sim'.nodes i).toReplica = (sim.nodes i).toReplica)
    (hqueue : sim'.queue.entries ⊆ sim.queue.entries) : Covers N sim' where
  replicas i := (h.replicas i).trans (hreplicas i).symm
  sent event hmem := h.sent event (hqueue hmem)

theorem Covers.withRng (h : Covers N sim) (rng : Lcg) : Covers N { sim with rng := rng } :=
  h.congr (fun _ => rfl) fun _ hmem => hmem

/-- A message that is entered has been sent. -/
theorem Covers.push {time : ℕ} {kind : EventKind config.nodes} (h : Covers N sim)
    (hkind : ∀ receiver sender message, kind = .deliver receiver sender message →
      message ∈ N.sent) : Covers N (sim.push time kind) where
  replicas := h.replicas
  sent event hmem receiver sender message hwhat := by
    obtain rfl | hold := Agenda.mem_enter.mp hmem
    · exact hkind receiver sender message hwhat
    · exact h.sent event hold receiver sender message hwhat

theorem Covers.scheduleTick (h : Covers N sim) (node : Fin config.nodes) :
    Covers N (sim.scheduleTick node) :=
  h.push fun _ _ _ hkind => nomatch hkind

theorem Covers.scheduleNextMine (h : Covers N sim) (node : Fin config.nodes) :
    Covers N (sim.scheduleNextMine node) := by
  obtain ⟨rng, delay, -, heq⟩ := sim.scheduleNextMine_eq node
  rw [heq]
  exact (h.withRng rng).push fun _ _ _ hkind => nomatch hkind

/-- An event is about to be handled. -/
theorem Covers.due {event : Appointment (EventKind config.nodes)}
    {queue : Agenda (EventKind config.nodes)} (h : Covers N sim)
    (hnext : sim.queue.next = some (event, queue)) : Covers N (sim.due event queue) :=
  h.congr (fun _ => rfl) fun _ hmem => (Agenda.mem_of_next hnext).mpr (Or.inr hmem)

section Steps

variable [HeaderHash] [TxCodec] [Evm] [Trie] [FeeRule]

/-- From a network the simulation can be covered, with so many blocks mined on the way. -/
def CoveredFrom (N : Network (Fin config.nodes)) (sim : Simulation config)
    (blocks : List BlockPayload) : Prop :=
  ∃ events, Each Network.step Legal N events ∧ Network.mined events = blocks ∧
    Covers (after Network.step N events) sim

theorem Covers.coveredFrom (h : Covers N sim) : CoveredFrom N sim [] := ⟨[], trivial, rfl, h⟩

theorem CoveredFrom.trans {blocks blocks' : List BlockPayload} (h : CoveredFrom N sim blocks)
    (hnext : ∀ N', Covers N' sim → CoveredFrom N' sim' blocks') :
    CoveredFrom N sim' (blocks ++ blocks') := by
  obtain ⟨events, hlegal, rfl, hcovers⟩ := h
  obtain ⟨events', hlegal', rfl, hcovers'⟩ := hnext _ hcovers
  refine ⟨events ++ events', each_append.mpr ⟨hlegal, hlegal'⟩, mined_append events events', ?_⟩
  rw [after_append]
  exact hcovers'

theorem CoveredFrom.imp {blocks : List BlockPayload} (h : CoveredFrom N sim blocks)
    (hnext : ∀ N', Covers N' sim → Covers N' sim') : CoveredFrom N sim' blocks := by
  obtain ⟨events, hlegal, hmined, hcovers⟩ := h
  exact ⟨events, hlegal, hmined, hnext _ hcovers⟩

omit [HeaderHash] [TxCodec] [Evm] [Trie] [FeeRule] in
theorem toReplica_setSync (sim : Simulation config) (node i : Fin config.nodes) (S : DagSync) :
    ((sim.setSync node S).nodes i).toReplica
      = Function.update (fun i => (sim.nodes i).toReplica) node
          { (sim.nodes node).toReplica with sync := S } i := by
  show (Function.update sim.nodes node { sim.nodes node with sync := S } i).toReplica = _
  rw [Function.update_apply, Function.update_apply]
  split <;> rfl

/-- A call is made to a node of the network as it is to one of the simulation. -/
theorem Covers.call (h : Covers N sim) (node : Fin config.nodes) (call : SyncCall) :
    Covers (N.step (.call node call)) (sim.setSync node ((sim.nodes node).sync.step call)) where
  replicas i := by
    rw [toReplica_setSync]
    show Function.update N.replicas node { N.replicas node with
      sync := ((N.replicas node).sync.call call).1 } i = _
    rw [funext h.replicas]
    rfl
  sent event hmem receiver sender message hwhat :=
    List.mem_append_left _ (h.sent event hmem receiver sender message hwhat)

/-- **Dispatching.** What is sent goes under way, and a connection is closed by a call at each
end. -/
theorem Covers.dispatch (h : Covers N sim) (node : Fin config.nodes) (actions : List Action)
    (hsent : ∀ message ∈ sentMessages actions, message ∈ N.sent) :
    CoveredFrom N (sim.dispatch node actions) [] := by
  have hrule : ∃ events, Each Network.step Legal N events ∧ Network.mined events = [] ∧
      Covers (after Network.step N events) (sim.dispatch node actions) ∧
      ∀ message ∈ sentMessages actions, message ∈ (after Network.step N events).sent := by
    refine dispatch_induct (P := fun sim' => ∃ events, Each Network.step Legal N events ∧
      Network.mined events = [] ∧ Covers (after Network.step N events) sim' ∧
      ∀ message ∈ sentMessages actions, message ∈ (after Network.step N events).sent)
      ?_ ?_ ⟨[], trivial, rfl, h, hsent⟩
    · -- a message goes to the queue, or is lost
      rintro sim receiver message hmem ⟨events, hlegal, hmined, hcovers, hsent⟩
      refine ⟨events, hlegal, hmined, ?_, hsent⟩
      obtain ⟨_, hlost⟩ | ⟨_, _, -, hsend⟩ := sim.send_cases node receiver message
      · rw [hlost]
        exact hcovers.congr (fun _ => rfl) fun _ hmem => hmem
      · rw [hsend]
        refine (hcovers.withRng _).push fun _ _ sent hkind => ?_
        obtain ⟨-, -, rfl⟩ := EventKind.deliver.inj hkind
        exact hsent message (mem_sentMessages.mpr ⟨receiver.val, hmem⟩)
    · -- a disconnect is one call at the node, and one at the peer if that is a node
      rintro sim peer reason - ⟨events, hlegal, hmined, hcovers, hsent⟩
      have hone : Covers ((after Network.step N events).step (.call node (.disconnect peer)))
          (sim.setSync node ((sim.nodes node).sync.onDisconnect peer)) :=
        hcovers.call node (.disconnect peer)
      unfold disconnect
      dsimp only
      split
      · -- the peer is no node of the network
        refine ⟨events ++ [.call node (.disconnect peer)], ?_, ?_, ?_, ?_⟩
        · exact each_append.mpr ⟨hlegal, ⟨trivial, trivial⟩, trivial⟩
        · rw [mined_append, hmined]
          rfl
        · rw [after_append]
          exact hone
        · rw [after_append]
          exact fun message hmem => List.mem_append_left _ (hsent message hmem)
      · -- the peer loses its connection as well
        next receiver _ =>
        refine ⟨events ++ [.call node (.disconnect peer), .call receiver (.disconnect node.val)],
          ?_, ?_, ?_, ?_⟩
        · exact each_append.mpr ⟨hlegal, ⟨trivial, trivial⟩, ⟨trivial, trivial⟩, trivial⟩
        · rw [mined_append, hmined]
          rfl
        · rw [after_append]
          exact hone.call receiver (.disconnect node.val)
        · rw [after_append]
          exact fun message hmem =>
            List.mem_append_left _ (List.mem_append_left _ (hsent message hmem))
  obtain ⟨events, hlegal, hmined, hcovers, -⟩ := hrule
  exact ⟨events, hlegal, hmined, hcovers⟩

/-- The blocks a call hands in. -/
def handedIn : SyncCall → List BlockPayload
  | .localBlock block => [block]
  | _ => []

/-- **A call** whose message has been sent, with all that follows from it. -/
theorem Covers.act (h : Covers N sim) (node : Fin config.nodes) (call : SyncCall)
    (hdelivers : N.Delivers (.call node call)) :
    CoveredFrom N (sim.act node call) (handedIn call) := by
  -- the call itself is one event of the network
  have hone : CoveredFrom N (sim.setSync node ((sim.nodes node).sync.step call)) (handedIn call) := by
    refine ⟨[.call node call], ⟨⟨hdelivers, trivial⟩, trivial⟩, ?_, h.call node call⟩
    cases call <;> rfl
  have hsync : (N.replicas node).sync = (sim.nodes node).sync := congrArg _ (h.replicas node)
  -- its actions are covered by what the call sent
  obtain ⟨events, hlegal, hmined, hcovers⟩ := (h.call node call).dispatch node
    ((sim.nodes node).sync.call call).2 fun message hmem =>
      List.mem_append_right _ (hsync ▸ hmem)
  refine ⟨.call node call :: events, ⟨⟨hdelivers, trivial⟩, hlegal⟩, ?_, hcovers⟩
  obtain ⟨first, -, hfirst, -⟩ := hone
  -- only the first event hands a block in
  have hcons : Network.mined (.call node call :: events)
      = Network.mined [.call node call] ++ Network.mined events := mined_append [_] events
  rw [hcons, hmined, List.append_nil]
  cases call <;> rfl

/-- **Noting changes** that succeeds. -/
theorem Covers.note {node : Fin config.nodes} (h : Covers N sim)
    (hok : sim.noteChanges node = .ok sim') : CoveredFrom N sim' [] := by
  obtain ⟨hsucceeds, honly, hnodes⟩ := noteChanges_ok hok
  -- one event of the network, and it succeeds
  refine ⟨[.note node], ⟨⟨trivial, ?_⟩, trivial⟩, rfl, fun i => ?_, ?_⟩
  · show (N.replicas node).noteChanges.2.isOk = true
    rw [h.replicas node]
    exact hsucceeds
  · -- both update the same replica
    show Function.update N.replicas node (N.replicas node).noteChanges.1 i = _
    rw [hnodes, h.replicas node, Function.update_apply, Function.update_apply]
    split
    · rfl
    · exact h.replicas i
  · rw [honly.queue]
    exact h.sent

end Steps

/-! ### Runs -/

section Run

variable [HeaderHash] [TxCodec] [Evm] [Trie] [FeeRule] [CodeHash] [Signer]

/-- The network of a simulation. -/
def setup (pow : PowHash) (config : SimConfig) (genesisState : WorldState) :
    NetworkSetup (Fin config.nodes) where
  genesis := simGenesis
  k := config.k
  mergesetSizeLimit := config.mergesetLimit
  params := testnet1bps
  genesisState := genesisState
  gate := fun _ => structureAndPow pow
  maxOrphans := fun _ => 4096
  requestTimeoutMs := fun _ => 2000

variable {pow : PowHash}

omit [TxCodec] [Evm] [CodeHash] in
theorem covers_initial (genesisState : WorldState) :
    Covers (setup pow config genesisState).start (initial pow config genesisState) where
  replicas _ := rfl
  sent _ hmem := absurd hmem List.not_mem_nil

/-- What the nodes have done, the network can do. -/
def Covered (pow : PowHash) (sim : Simulation config) (log : List (MinedBlock config.nodes)) :
    Prop :=
  ∃ genesisState, WorldState.loadGenesis (genesisAlloc config) = .ok genesisState ∧
    CoveredFrom (setup pow config genesisState).start sim (log.map MinedBlock.block)

theorem Covered.imp {log : List (MinedBlock config.nodes)} (h : Covered pow sim log)
    (hnext : ∀ N, Covers N sim → Covers N sim') : Covered pow sim' log := by
  obtain ⟨genesisState, hgenesis, hcovered⟩ := h
  exact ⟨genesisState, hgenesis, hcovered.imp hnext⟩

theorem Covered.step {log : List (MinedBlock config.nodes)} (h : Covered pow sim log)
    (hnext : ∀ N, Covers N sim → CoveredFrom N sim' []) : Covered pow sim' log := by
  obtain ⟨genesisState, hgenesis, hcovered⟩ := h
  exact ⟨genesisState, hgenesis, List.append_nil (log.map MinedBlock.block) ▸ hcovered.trans hnext⟩

theorem Covered.trans {log more : List (MinedBlock config.nodes)} (h : Covered pow sim log)
    (hnext : ∀ N, Covers N sim → CoveredFrom N sim' (more.map MinedBlock.block)) :
    Covered pow sim' (log ++ more) := by
  obtain ⟨genesisState, hgenesis, hcovered⟩ := h
  refine ⟨genesisState, hgenesis, ?_⟩
  rw [List.map_append]
  exact hcovered.trans hnext

section Events

variable {log : List (MinedBlock config.nodes)} {event : Appointment (EventKind config.nodes)}
  {queue : Agenda (EventKind config.nodes)}

/-- A message is handed over, which has been sent. -/
theorem Covered.receive {receiver sender : Fin config.nodes} {message : Message}
    (h : Covered pow sim log) (hnext : sim.queue.next = some (event, queue))
    (hwhat : event.what = .deliver receiver sender message) :
    Covered pow ((sim.due event queue).receiving.act receiver
      (.message sender.val message event.time)) log := by
  refine h.step fun N hcovers => ?_
  have hsent : message ∈ N.sent :=
    hcovers.sent event ((Agenda.mem_of_next hnext).mpr (Or.inl rfl)) _ _ _ hwhat
  have hdue : Covers N (sim.due event queue).receiving :=
    (hcovers.due hnext).congr (fun _ => rfl) fun _ hmem => hmem
  exact hdue.act receiver (.message sender.val message event.time) hsent

/-- A mined block is handed over. -/
theorem Covered.mine (h : Covered pow sim log) (hnext : sim.queue.next = some (event, queue))
    (node : Fin config.nodes) (header : Header) :
    Covered pow (((sim.due event queue).withMined node).act node
        (.localBlock ((sim.due event queue).minedBlock node header)))
      (log ++ [⟨node, event.time, (sim.due event queue).minedBlock node header⟩]) := by
  refine h.trans fun N hcovers => ?_
  have honly := makeTransactions_onlyNonces node config.txsPerBlock (sim.due event queue)
  have hmined : Covers N ((sim.due event queue).withMined node) := by
    refine (hcovers.due hnext).congr honly.replica fun _ hmem => ?_
    exact honly.queue ▸ hmem
  exact hmined.act node (.localBlock _) trivial

/-- A node notes what has changed. -/
theorem Covered.note {node : Fin config.nodes} (h : Covered pow sim log)
    (hok : sim.noteChanges node = .ok sim') : Covered pow sim' log :=
  h.step fun _ hcovers => hcovers.note hok

end Events

theorem lasts_covered : Lasts pow fun (sim : Simulation config) log => Covered pow sim log where
  start := by
    -- the handshakes of the start are calls; the duties change no replica
    refine new_induct (P := fun sim => Covered pow sim []) (fun genesisState hgenesis => ?_)
      (fun sim i j h => ?_) fun sim node h => ?_
    · exact ⟨genesisState, hgenesis, (covers_initial genesisState).coveredFrom⟩
    · exact h.step fun _ hcovers => hcovers.act i (.connect j.val) trivial
    · exact h.imp fun _ hcovers => (hcovers.scheduleNextMine node).scheduleTick node
  deliver _ h hnext hwhat hok := (h.receive hnext hwhat).note hok
  tick := by
    intro sim log event queue node _ h hnext _
    -- a tick is a call, and its next appointment changes no replica
    refine h.step fun N hcovers => ?_
    exact ((hcovers.due hnext).act node (.tick event.time) trivial).imp fun _ hcovers =>
      hcovers.scheduleTick node
  idle _ h hnext _ := h.imp fun _ hcovers => (hcovers.due hnext).scheduleNextMine _
  mine _ h hnext _ _ hok :=
    ((h.mine hnext _ _).note hok).imp fun _ hcovers => hcovers.scheduleNextMine _
  suspend _ h := h.imp fun _ hcovers => hcovers.congr (fun _ => rfl) fun _ hmem => hmem
  wait h _ _ := h.imp fun _ hcovers => hcovers.congr (fun _ => rfl) fun _ hmem => hmem

/-- **The simulation refines the network**, which mines the same blocks. -/
theorem Reached.covered {log : List (MinedBlock config.nodes)} (h : Reached pow sim log) :
    Covered pow sim log :=
  h.rule lasts_covered

end Run

end Simulation

end Chainname.Testkit
