import Chainname.Testkit.Clockwork

/-!
# The blocks of a run

A node has its next block ahead once, and at least a millisecond after the last one, so that it
never mines two at the same time (`Logged`). A header tells the time and the miner, and the first
255 nodes mine under different addresses. So in a run of no more nodes than that, no two of the
blocks have the same header (`Reached.names`): what identifies a header identifies the block.

The header commits to no transactions in a simulation. Two nodes of one address that mine on the
same tips at the same time would mine two blocks that no node can tell apart.
-/

namespace Chainname.Testkit

namespace Simulation

variable {config : SimConfig} {sim sim' : Simulation config}

/-- Addresses of twenty equal bytes are different for different bytes. -/
theorem repeatByte_injective {a b : ℕ} (ha : a < 256) (hb : b < 256)
    (h : repeatByte a = repeatByte b) : a = b := by
  -- the value of an address of twenty equal bytes, from which the byte is read back
  have hvalue : ∀ {byte : ℕ}, byte < 256 →
      (repeatByte byte).val = byte * 5731378969925109483151705226338364782964441345 := by
    intro byte hbyte
    have hfold : (List.range 20).foldl (fun n _ => n * 256 + byte) 0
        = byte * 5731378969925109483151705226338364782964441345 := by
      simp only [List.range, List.range.loop, List.foldl_cons, List.foldl_nil]
      ring
    unfold repeatByte
    rw [hfold]
    exact Nat.mod_eq_of_lt (by omega)
  have hval := congrArg Fin.val h
  rw [hvalue ha, hvalue hb] at hval
  omega

/-- A node has its next block ahead once. -/
theorem Clock.unique_of_next (h : sim.Clock) {event other : Appointment (EventKind config.nodes)}
    {queue : Agenda (EventKind config.nodes)} (hnext : sim.queue.next = some (event, queue))
    {duty : Duty × Fin config.nodes} (hduty : event.what.duty = some duty)
    (hmem : other ∈ queue.entries) : other.what.duty ≠ some duty := by
  intro hother
  have honce := h.once duty
  unfold Simulation.ahead at honce
  rw [(Agenda.entries_of_next hnext).1, List.countP_cons, if_pos (decide_eq_true hduty)] at honce
  have hpos : 0 < queue.entries.countP fun event => event.what.duty = some duty :=
    List.countP_pos_iff.mpr ⟨other, hmem, decide_eq_true hother⟩
  omega

section Runs

variable [HeaderHash] [TxCodec] [Evm] [Trie] [FeeRule] [Signer] {pow : PowHash}

omit [HeaderHash] [TxCodec] [Evm] [Trie] [FeeRule] [Signer] in
/-- Mined parents are strictly ascending. -/
theorem ascending_miningParents (D : DagStore) : D.miningParents.Pairwise (· < ·) := by
  have hperm := DagStore.miningParents_perm D
  have hnodup : D.miningParents.Nodup := hperm.nodup_iff.mpr
    ((DagStore.nodup_sortedTips D).sublist (List.take_sublist _ _))
  have hsorted : D.miningParents.Pairwise (· ≤ ·) :=
    (List.pairwise_insertionSort (· ≤ ·) _).sublist (List.destutter_sublist _ _)
  exact (hsorted.and hnodup).imp fun h => lt_of_le_of_ne h.1 h.2

omit [HeaderHash] [TxCodec] [Evm] [Trie] [FeeRule] [Signer] in
/-- **A mined header** has the structure of a header, and promises the target it was mined at. -/
theorem minedHeader_wellFormed {node : Fin config.nodes} {header : Header}
    (h : sim.minedHeader pow node = some header) : header.WellFormed ∧ header.bits = simBits := by
  obtain ⟨hparents, ⟨nonce, rfl⟩, -⟩ := minedHeader_eq_some h
  exact ⟨⟨rfl, hparents, ascending_miningParents _⟩, rfl⟩

omit [HeaderHash] [TxCodec] [Evm] [Trie] [FeeRule] in
/-- What is mined when an event is handled. -/
theorem mem_minedNow {kind : EventKind config.nodes} {b : MinedBlock config.nodes}
    (h : b ∈ minedNow pow sim kind) :
    kind = .mine b.node ∧ b.time = sim.nowMs ∧
      b.block.header.timestampMs = UInt64.ofNat b.time ∧
      b.block.header.miner = (sim.nodes b.node).miner ∧ b.block.header.WellFormed ∧
      b.block.header.bits = simBits := by
  cases kind with
  | deliver receiver sender message => exact absurd h List.not_mem_nil
  | tick node => exact absurd h List.not_mem_nil
  -- only the mining event mines, with a header that the search found
  | mine node =>
    unfold minedNow at h
    dsimp only at h
    split at h
    · obtain ⟨header, hheader, rfl⟩ := List.mem_map.mp h
      have hwell := minedHeader_wellFormed (Option.mem_toList.mp hheader)
      obtain ⟨-, ⟨nonce, rfl⟩, -⟩ := minedHeader_eq_some (Option.mem_toList.mp hheader)
      exact ⟨rfl, rfl, rfl, rfl, hwell⟩
    · exact absurd h List.not_mem_nil

omit [HeaderHash] [TxCodec] [Evm] [Trie] [FeeRule] in
/-- It is one block at most. -/
theorem pairwise_minedNow (kind : EventKind config.nodes)
    (R : MinedBlock config.nodes → MinedBlock config.nodes → Prop) :
    (minedNow pow sim kind).Pairwise R := by
  cases kind with
  | deliver receiver sender message => exact List.Pairwise.nil
  | tick node => exact List.Pairwise.nil
  -- one block at most
  | mine node =>
    unfold minedNow
    dsimp only
    split
    · cases sim.minedHeader pow node with
      | none => exact List.Pairwise.nil
      | some header => exact List.pairwise_singleton _ _
    · exact List.Pairwise.nil

/-- When the blocks of a run have been mined. -/
structure Logged (sim : Simulation config) (log : List (MinedBlock config.nodes)) : Prop where
  past : ∀ b ∈ log, b.time ≤ sim.nowMs
  /-- The next block of a node is later than those it has mined. -/
  ahead : ∀ b ∈ log, ∀ event ∈ sim.queue.entries, event.what.duty = some (.mine, b.node) →
    b.time < event.time
  apart : log.Pairwise fun a b => a.node = b.node → a.time < b.time

theorem Logged.handle {log : List (MinedBlock config.nodes)}
    {event : Appointment (EventKind config.nodes)} {queue : Agenda (EventKind config.nodes)}
    (hclock : sim.Clock) (h : sim.Logged log) (hnext : sim.queue.next = some (event, queue))
    (hok : (sim.due event queue).handle pow event.what = .ok sim') :
    sim'.Logged (log ++ minedNow pow (sim.due event queue) event.what) := by
  obtain ⟨new, henters, hfollows⟩ := enters_handle hok
  unfold Enters at henters
  have hfirst : event ∈ sim.queue.entries := (Agenda.mem_of_next hnext).mpr (Or.inl rfl)
  have hnow : sim.nowMs ≤ event.time := hclock.late event hfirst
  -- a block mined now is of the event's node, at the event's time
  have hmined : ∀ b ∈ minedNow pow (sim.due event queue) event.what,
      event.what.duty = some (.mine, b.node) ∧ b.time = event.time := by
    intro b hb
    obtain ⟨hwhat, htime, -⟩ := mem_minedNow hb
    rw [hwhat]
    exact ⟨rfl, htime⟩
  -- no block is from the future, and the next of its node is later than it
  refine ⟨fun b hb => ?_, fun b hb other hmem hduty => ?_, ?_⟩
  · rw [nowMs_handle hok]
    show b.time ≤ event.time
    obtain hold | hnew := List.mem_append.mp hb
    · exact (h.past b hold).trans hnow
    · exact (hmined b hnew).2.le
  · obtain hlater | hrest := List.mem_append.mp (henters.mem_iff.mp hmem)
    · -- the next block of the node has just been entered
      refine lt_of_le_of_lt ?_ (hfollows.mine other hlater b.node hduty)
      obtain hold | hnew := List.mem_append.mp hb
      · exact (h.past b hold).trans hnow
      · exact (hmined b hnew).2.le
    · -- what was in the queue: an old block by the invariant, a new one since its node had one duty
      obtain hold | hnew := List.mem_append.mp hb
      · exact h.ahead b hold other ((Agenda.mem_of_next hnext).mpr (Or.inr hrest)) hduty
      · exact absurd hduty (hclock.unique_of_next hnext (hmined b hnew).1 hrest)
  · -- two blocks of one node: the new one is due later than the old
    refine List.pairwise_append.mpr ⟨h.apart, pairwise_minedNow _ _, fun a ha b hb hnode => ?_⟩
    obtain ⟨hduty, htime⟩ := hmined b hb
    rw [htime]
    exact h.ahead a ha event hfirst (hnode ▸ hduty)

variable [CodeHash]

theorem Reached.logged {log : List (MinedBlock config.nodes)} (h : Reached pow sim log) :
    sim.Logged log := by
  induction h with
  | start h => exact ⟨nofun, nofun, List.Pairwise.nil⟩
  | event hreached hnext hok ih => exact ih.handle hreached.clock hnext hok
  | suspend _ _ ih => exact ⟨ih.past, ih.ahead, ih.apart⟩
  | wait _ hnow _ ih => exact ⟨fun b hb => (ih.past b hb).trans hnow, ih.ahead, ih.apart⟩

/-! ### Who mined what -/

omit [HeaderHash] [TxCodec] [Evm] [Trie] [FeeRule] [CodeHash] in
theorem sameOwners_withMined_miner (node i : Fin config.nodes) :
    ((sim.withMined node).nodes i).miner = (sim.nodes i).miner :=
  (makeTransactions_onlyNonces node config.txsPerBlock sim).miner i

omit [HeaderHash] [CodeHash] [Signer] in
theorem miner_noteChanges {node : Fin config.nodes} (h : sim.noteChanges node = .ok sim')
    (i : Fin config.nodes) : (sim'.nodes i).miner = (sim.nodes i).miner :=
  (SameOwners.of_update (noteChanges_ok h).2.2).miner i

/-- The miners of the nodes stay, and as many blocks have been counted as mined. -/
structure Owned (sim : Simulation config) (log : List (MinedBlock config.nodes)) : Prop where
  miner : ∀ i, (sim.nodes i).miner = repeatByte (i.val % 255 + 1)
  mined : sim.mined = log.length
  header : ∀ b ∈ log, b.block.header.timestampMs = UInt64.ofNat b.time ∧
    b.block.header.miner = repeatByte (b.node.val % 255 + 1) ∧ b.block.header.WellFormed ∧
    b.block.header.bits = simBits

omit [HeaderHash] [TxCodec] [Evm] [Trie] [FeeRule] [CodeHash] [Signer] in
theorem Owned.congr {log : List (MinedBlock config.nodes)} (h : sim.Owned log)
    (hminer : ∀ i, (sim'.nodes i).miner = (sim.nodes i).miner) (hmined : sim'.mined = sim.mined) :
    sim'.Owned log :=
  ⟨fun i => (hminer i).trans (h.miner i), hmined.trans h.mined, h.header⟩

theorem lasts_owned : Lasts pow fun (sim : Simulation config) log => Owned sim log where
  start := new_induct (P := fun sim => sim.Owned []) (fun _ _ => ⟨fun _ => rfl, rfl, nofun⟩)
    (fun _ i _ h => h.congr (sameOwners_act i _).miner (onlyTraffic_act _ i _).mined)
    fun _ _ h => h.congr (fun _ => rfl) rfl
  deliver := by
    intro sim sim' log event queue receiver sender message _ h _ _ hok
    have hact := (sim.due event queue).receiving.onlyTraffic_act receiver
      (.message sender.val message event.time)
    refine h.congr (fun i => ?_) ((noteChanges_ok hok).2.1.mined.trans hact.mined)
    exact (miner_noteChanges hok i).trans ((sameOwners_act receiver _).miner i)
  tick := by
    intro sim log event queue node _ h _ _
    have hacted : ((sim.due event queue).act node (.tick event.time)).Owned log :=
      h.congr (fun i => (sameOwners_act node _).miner i) (onlyTraffic_act _ node _).mined
    refine hacted.congr (fun i => ?_) (mined_scheduleTick node)
    rw [nodes_scheduleTick]
  idle _ h _ _ := h.congr (fun _ => rfl) rfl
  mine := by
    intro sim sim' log event queue node header _ h _ _ hheader hok
    have hminer : ∀ i, (sim'.nodes i).miner = (sim.nodes i).miner := fun i =>
      ((miner_noteChanges hok i).trans ((sameOwners_act node _).miner i)).trans
        (sameOwners_withMined_miner node i)
    -- the block of this event joins the log, and the counter
    refine ⟨fun i => (hminer i).trans (h.miner i), ?_, fun b hb => ?_⟩
    · have hact := ((sim.due event queue).withMined node).onlyTraffic_act node
        (.localBlock ((sim.due event queue).minedBlock node header))
      have hmade := makeTransactions_onlyNonces node config.txsPerBlock (sim.due event queue)
      rw [List.length_append, List.length_singleton, ← h.mined]
      calc sim'.mined
          = ((sim.due event queue).withMined node).mined :=
            (noteChanges_ok hok).2.1.mined.trans hact.mined
        _ = sim.mined + 1 := congrArg (· + 1) hmade.traffic.mined
    · obtain hold | hnew := List.mem_append.mp hb
      · exact h.header b hold
      · -- the new header is well formed and of the node's miner
        rw [List.mem_singleton.mp hnew]
        have hwell := minedHeader_wellFormed hheader
        obtain ⟨-, ⟨nonce, rfl⟩, -⟩ := minedHeader_eq_some hheader
        exact ⟨rfl, h.miner node, hwell⟩
  suspend _ h := h.congr (fun _ => rfl) rfl
  wait h _ _ := h.congr (fun _ => rfl) rfl

theorem Reached.owned {log : List (MinedBlock config.nodes)} (h : Reached pow sim log) :
    sim.Owned log :=
  h.rule lasts_owned

omit [HeaderHash] [TxCodec] [Evm] [Trie] [FeeRule] [CodeHash] [Signer] in
/-- What the headers of a log tell by a time. -/
structure Told (now : ℕ) (log : List (MinedBlock config.nodes)) : Prop where
  header : ∀ b ∈ log, b.block.header.timestampMs = UInt64.ofNat b.time ∧
    b.block.header.miner = repeatByte (b.node.val % 255 + 1) ∧ b.block.header.WellFormed ∧
    b.block.header.bits = simBits
  past : ∀ b ∈ log, b.time ≤ now
  apart : log.Pairwise fun a b => a.node = b.node → a.time < b.time

theorem Reached.told {log : List (MinedBlock config.nodes)} (h : Reached pow sim log) :
    Told sim.nowMs log :=
  ⟨h.owned.header, h.logged.past, h.logged.apart⟩

/-- Also when the next event is about to be handled. -/
theorem Reached.told_next {log : List (MinedBlock config.nodes)}
    {event : Appointment (EventKind config.nodes)} {queue : Agenda (EventKind config.nodes)}
    (h : Reached pow sim log) (hnext : sim.queue.next = some (event, queue)) :
    Told event.time (log ++ minedNow pow (sim.due event queue) event.what) := by
  have hfirst : event ∈ sim.queue.entries := (Agenda.mem_of_next hnext).mpr (Or.inl rfl)
  refine ⟨fun b hb => ?_, fun b hb => ?_, ?_⟩
  · obtain hold | hnew := List.mem_append.mp hb
    · exact h.owned.header b hold
    · obtain ⟨-, -, htime, hminer, hwell⟩ := mem_minedNow hnew
      -- well formed, by the search that found it
      exact ⟨htime, hminer.trans (h.owned.miner b.node), hwell⟩
  · obtain hold | hnew := List.mem_append.mp hb
    · exact (h.logged.past b hold).trans (h.clock.late event hfirst)
    · exact (mem_minedNow hnew).2.1.le
  · -- the event was queued when the old block was logged, so that it is later
    refine List.pairwise_append.mpr
      ⟨h.logged.apart, pairwise_minedNow _ _, fun a ha b hb hnode => ?_⟩
    obtain ⟨hwhat, htime, -⟩ := mem_minedNow hb
    rw [htime]
    refine h.logged.ahead a ha event hfirst ?_
    rw [hwhat, hnode]
    rfl

section Headers

omit [HeaderHash] [TxCodec] [Evm] [Trie] [FeeRule] [CodeHash] [Signer]

variable {now : ℕ} {log : List (MinedBlock config.nodes)}

/-- **No two blocks of a run have the same miner and time**, if no two nodes have the same address
and time fits into a header. -/
theorem Told.header_injective (h : Told now log) (hnodes : config.nodes ≤ 255)
    (htime : now < 2 ^ 64) {a b : MinedBlock config.nodes} (ha : a ∈ log) (hb : b ∈ log)
    (hminer : a.block.header.miner = b.block.header.miner)
    (hstamp : a.block.header.timestampMs = b.block.header.timestampMs) : a = b := by
  obtain ⟨htimeA, hminerA, -⟩ := h.header a ha
  obtain ⟨htimeB, hminerB, -⟩ := h.header b hb
  -- the miner's address is of the node's own byte
  have hnode : a.node = b.node := by
    have hbyte := repeatByte_injective (by omega) (by omega)
      (hminerA.symm.trans (hminer.trans hminerB))
    have := a.node.isLt
    have := b.node.isLt
    exact Fin.ext (by omega)
  -- below `2 ^ 64` the stamp is the time
  have hsame : a.time = b.time := by
    have hval := congrArg UInt64.toNat (htimeA.symm.trans (hstamp.trans htimeB))
    rw [UInt64.toNat_ofNat', UInt64.toNat_ofNat', Nat.mod_eq_of_lt ((h.past a ha).trans_lt htime),
      Nat.mod_eq_of_lt ((h.past b hb).trans_lt htime)] at hval
    exact hval
  -- two blocks of one node at one time are one
  by_contra hne
  have hapart : log.Pairwise fun a b => a.node = b.node → a.time ≠ b.time :=
    h.apart.imp fun hlt hnode => (hlt hnode).ne
  have hsymm : Std.Symm fun a b : MinedBlock config.nodes => a.node = b.node → a.time ≠ b.time :=
    ⟨fun _ _ hne hnode => (hne hnode.symm).symm⟩
  exact hapart.forall ha hb hne hnode hsame

/-- The headers of a run are told apart: each node has an address of its own, time fits into a
header, and no two headers have the same hash. -/
structure Apart [HeaderHash] (sim : Simulation config) (log : List (MinedBlock config.nodes)) :
    Prop where
  nodes : config.nodes ≤ 255
  time : sim.nowMs < 2 ^ 64
  hash : ∀ a ∈ simGenesis :: log.map (·.block.header),
    ∀ b ∈ simGenesis :: log.map (·.block.header), a.hash = b.hash → a = b

/-- Genesis and what has been mined. -/
def issuedBlocks (log : List (MinedBlock config.nodes)) : List BlockPayload :=
  ⟨simGenesis, []⟩ :: log.map MinedBlock.block

/-- What identifies a header identifies a block. -/
theorem Told.names [HeaderHash] (h : Told sim.nowMs log) (hapart : sim.Apart log) :
    Names (· ∈ issuedBlocks log) := by
  -- an issued block is genesis or a block of the log
  have hmem : ∀ {block : BlockPayload}, block ∈ issuedBlocks log →
      block.header ∈ simGenesis :: log.map (·.block.header) := by
    intro block hblock
    obtain rfl | hblock := List.mem_cons.mp hblock
    · exact List.mem_cons_self
    · obtain ⟨b, hb, rfl⟩ := List.mem_map.mp hblock
      exact List.mem_cons_of_mem _ (List.mem_map.mpr ⟨b, hb, rfl⟩)
  intro block block' hblock hblock' hsame
  have hheader := hapart.hash _ (hmem hblock) _ (hmem hblock') hsame
  obtain rfl | hblock := List.mem_cons.mp hblock
  · obtain rfl | hblock' := List.mem_cons.mp hblock'
    · rfl
    · obtain ⟨b, hb, rfl⟩ := List.mem_map.mp hblock'
      -- a mined block has parents, genesis has none
      exact absurd (congrArg Header.parents hheader.symm) (h.header b hb).2.2.1.parents_ne_nil
  · obtain ⟨a, ha, rfl⟩ := List.mem_map.mp hblock
    obtain rfl | hblock' := List.mem_cons.mp hblock'
    · -- the same the other way round
      exact absurd (congrArg Header.parents hheader) (h.header a ha).2.2.1.parents_ne_nil
    · obtain ⟨b, hb, rfl⟩ := List.mem_map.mp hblock'
      -- two of the log: one miner and stamp, by the equality of their headers
      exact congrArg MinedBlock.block (h.header_injective hapart.nodes hapart.time ha hb
        (congrArg Header.miner hheader) (congrArg Header.timestampMs hheader))

end Headers

end Runs

end Simulation

end Chainname.Testkit
