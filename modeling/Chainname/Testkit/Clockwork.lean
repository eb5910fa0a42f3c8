import Chainname.Testkit.SimEffects

/-!
# The clock of the simulation

Handling an event enters what follows from it: messages on their way for at least the least
latency, and the next one of the event's own kind if it is one a node does again and again
(`Follows`). So each node always has one block and one tick ahead of it, and time never runs
backwards (`Clock`).

If a tick and a message both take time, what is entered is later than what is handled, and a run
up to a deadline comes to an end however many events it takes. How a stretch of time is divided
between calls makes no difference.

A node keeps its times in 64 bits. Nothing that is entered is further ahead than `leadMs`, so no
time on the way to a deadline that lies so far below `2 ^ 64` gets there (`TimesFit.of_visits`), and
a clock that wraps would show the same times (`run_returns`).
-/

namespace Chainname.Testkit

/-- What a node does again and again. -/
inductive Duty where
  | mine
  | tick
  deriving DecidableEq

/-- The duty an event is about. -/
def EventKind.duty {n : ℕ} : EventKind n → Option (Duty × Fin n)
  | .deliver _ _ _ => none
  | .mine node => some (.mine, node)
  | .tick node => some (.tick, node)

namespace Simulation

variable {config : SimConfig} {sim sim' sim'' : Simulation config}

abbrev Events (config : SimConfig) : Type := List (Appointment (EventKind config.nodes))

/-- How often a duty is ahead. -/
def ahead (duty : Duty × Fin config.nodes) (events : Events config) : ℕ :=
  events.countP fun event => event.what.duty = some duty

theorem ahead_append (duty : Duty × Fin config.nodes) (events events' : Events config) :
    ahead duty (events ++ events') = ahead duty events + ahead duty events' :=
  List.countP_append

theorem ahead_perm (duty : Duty × Fin config.nodes) {events events' : Events config}
    (h : events.Perm events') : ahead duty events = ahead duty events' :=
  h.countP_eq _

/-! ### What is entered -/

/-- So many events are entered, and what was there stays. -/
def Enters (sim sim' : Simulation config) (new : Events config) : Prop :=
  sim'.queue.entries.Perm (new ++ sim.queue.entries)

theorem Enters.of_queue (h : sim'.queue = sim.queue) : sim.Enters sim' [] := by
  unfold Enters
  rw [h]
  exact List.Perm.refl _

theorem Enters.trans {new new' : Events config} (h : sim.Enters sim' new)
    (h' : sim'.Enters sim'' new') : sim.Enters sim'' (new' ++ new) := by
  unfold Enters at h h' ⊢
  rw [List.append_assoc]
  exact h'.trans (h.append_left new')

variable (sim) in
theorem enters_push (time : ℕ) (kind : EventKind config.nodes) :
    sim.Enters (sim.push time kind) [sim.queue.appointment time kind] :=
  sim.queue.enter_perm time kind

/-- A message that takes at least the least latency. -/
structure UnderWay (config : SimConfig) (now : ℕ) (event : Appointment (EventKind config.nodes)) :
    Prop where
  noDuty : event.what.duty = none
  late : now + config.link.minLatencyMs.toNat ≤ event.time
  soon : event.time ≤ now + leadMs config

variable (sim) in
/-- **Dispatching enters messages only.** -/
theorem enters_dispatch (sender : Fin config.nodes) (actions : List Action) :
    ∃ new, sim.Enters (sim.dispatch sender actions) new ∧
      ∀ event ∈ new, UnderWay config sim.nowMs event := by
  have hrule : (sim.dispatch sender actions).nowMs = sim.nowMs ∧
      ∃ new, sim.Enters (sim.dispatch sender actions) new ∧
        ∀ event ∈ new, UnderWay config sim.nowMs event := by
    refine dispatch_induct (P := fun sim' => sim'.nowMs = sim.nowMs ∧ ∃ new, sim.Enters sim' new ∧
      ∀ event ∈ new, UnderWay config sim.nowMs event) ?_ ?_
      ⟨rfl, [], .of_queue rfl, fun _ h => absurd h List.not_mem_nil⟩
    · -- a send enters at most the one delivery
      rintro sim' receiver message - ⟨hnow, new, henters, hnew⟩
      refine ⟨(onlyTraffic_send receiver message).nowMs.trans hnow, ?_⟩
      obtain ⟨rng, hlost⟩ | ⟨rng, latency, hlatency, hsend⟩ :=
        sim'.send_cases sender receiver message
      · rw [hlost]
        exact ⟨new, henters, hnew⟩
      · rw [hsend]
        have hpush := enters_push { sim' with rng := rng } (sim'.nowMs + latency)
          (.deliver receiver sender message)
        refine ⟨_, henters.trans hpush, fun event hmem => ?_⟩
        obtain rfl | hold := List.mem_cons.mp hmem
        · -- the message just sent: its latency was drawn between the two bounds
          refine ⟨rfl, ?_, ?_⟩
          · show sim.nowMs + _ ≤ sim'.nowMs + latency
            rw [hnow]
            exact Nat.add_le_add_left hlatency.1 _
          · show sim'.nowMs + latency ≤ sim.nowMs + _
            rw [hnow]
            exact Nat.add_le_add_left hlatency.2 _
        · exact hnew event hold
    · -- a disconnect leaves the queue alone
      rintro sim' peer reason - ⟨hnow, new, henters, hnew⟩
      have hqueue : (sim'.disconnect sender peer).queue = sim'.queue := by
        unfold disconnect
        dsimp only
        split <;> rfl
      exact ⟨(onlyTraffic_disconnect peer).nowMs.trans hnow, new,
        henters.trans (.of_queue hqueue), hnew⟩
  exact hrule.2

variable (sim) in
theorem enters_act [HeaderHash] (node : Fin config.nodes) (call : SyncCall) :
    ∃ new, sim.Enters (sim.act node call) new ∧ ∀ event ∈ new, UnderWay config sim.nowMs event :=
  enters_dispatch (sim.setSync node _) node _

omit sim sim' sim'' in
theorem tickIntervalMs_le_leadMs : config.tickIntervalMs.toNat ≤ leadMs config :=
  (le_max_left _ _).trans (le_max_right _ _)

/-- What handling an event at a time enters. -/
structure Follows (config : SimConfig) (now : ℕ) (kind : EventKind config.nodes)
    (new : Events config) : Prop where
  /-- The duty is entered again, and no other. -/
  again : ∀ duty, ahead duty new = if kind.duty = some duty then 1 else 0
  message : ∀ event ∈ new, event.what.duty = none →
    now + config.link.minLatencyMs.toNat ≤ event.time
  mine : ∀ event ∈ new, ∀ node, event.what.duty = some (.mine, node) → now < event.time
  tick : ∀ event ∈ new, ∀ node, event.what.duty = some (.tick, node) →
    event.time = now + config.tickIntervalMs.toNat
  soon : ∀ event ∈ new, event.time ≤ now + leadMs config

theorem ahead_underWay {now : ℕ} {new : Events config}
    (h : ∀ event ∈ new, UnderWay config now event) (duty : Duty × Fin config.nodes) :
    ahead duty new = 0 := by
  refine List.countP_eq_zero.mpr fun event hmem hduty => ?_
  have hnone := (h event hmem).noDuty
  rw [of_decide_eq_true hduty] at hnone
  cases hnone

/-- Messages follow a message. -/
theorem Follows.of_underWay {now : ℕ} {new : Events config} {receiver sender : Fin config.nodes}
    {message : Message} (h : ∀ event ∈ new, UnderWay config now event) :
    Follows config now (.deliver receiver sender message) new where
  again duty := ahead_underWay h duty
  message event hmem _ := (h event hmem).late
  mine event hmem node hduty := by
    rw [(h event hmem).noDuty] at hduty
    cases hduty
  tick event hmem node hduty := by
    rw [(h event hmem).noDuty] at hduty
    cases hduty
  soon event hmem := (h event hmem).soon

/-- Messages and the next of its kind follow a duty. -/
theorem Follows.cons {now : ℕ} {new : Events config} (event : Appointment (EventKind config.nodes))
    (h : ∀ event ∈ new, UnderWay config now event) (hduty : event.what.duty ≠ none)
    (hmine : ∀ node, event.what.duty = some (.mine, node) → now < event.time)
    (htick : ∀ node, event.what.duty = some (.tick, node) →
      event.time = now + config.tickIntervalMs.toNat)
    (hsoon : event.time ≤ now + leadMs config) :
    Follows config now event.what (event :: new) where
  again duty := by
    unfold ahead
    rw [List.countP_cons, show new.countP _ = 0 from ahead_underWay h duty, Nat.zero_add]
    simp only [decide_eq_true_eq]
  -- an event of `new` is a message, or the duty just scheduled
  message other hmem hnone := by
    obtain rfl | hold := List.mem_cons.mp hmem
    · exact absurd hnone hduty
    · exact (h other hold).late
  mine other hmem node hsome := by
    obtain rfl | hold := List.mem_cons.mp hmem
    · exact hmine node hsome
    · rw [(h other hold).noDuty] at hsome
      cases hsome
  tick other hmem node hsome := by
    obtain rfl | hold := List.mem_cons.mp hmem
    · exact htick node hsome
    · rw [(h other hold).noDuty] at hsome
      cases hsome
  soon other hmem := by
    obtain rfl | hold := List.mem_cons.mp hmem
    · exact hsoon
    · exact (h other hold).soon

variable (sim) in
theorem enters_scheduleNextMine (node : Fin config.nodes) :
    ∃ delay number, (1 ≤ delay ∧ delay ≤ leadMs config) ∧
      sim.Enters (sim.scheduleNextMine node) [⟨sim.nowMs + delay, number, .mine node⟩] := by
  obtain ⟨rng, delay, hdelay, heq⟩ := sim.scheduleNextMine_eq node
  rw [heq]
  exact ⟨delay, _, hdelay, enters_push { sim with rng := rng } _ _⟩

variable (sim) in
theorem enters_scheduleTick (node : Fin config.nodes) :
    ∃ number, sim.Enters (sim.scheduleTick node)
      [⟨sim.nowMs + config.tickIntervalMs.toNat, number, .tick node⟩] :=
  ⟨_, enters_push sim _ _⟩

section Handle

variable [HeaderHash] [TxCodec] [Evm] [Trie] [FeeRule] [Signer] {pow : PowHash}

/-- Messages follow from mining a block. -/
theorem enters_mineOne {node : Fin config.nodes} (h : sim.mineOne pow node = .ok sim') :
    sim'.nowMs = sim.nowMs ∧
      ∃ new, sim.Enters sim' new ∧ ∀ event ∈ new, UnderWay config sim.nowMs event := by
  obtain ⟨-, rfl⟩ | ⟨header, -, hnote⟩ := mineOne_ok h
  · -- no header found: nothing enters
    exact ⟨rfl, [], .of_queue rfl, fun _ h => absurd h List.not_mem_nil⟩
  · -- a block mined: its announcements enter, from the time of the event
    obtain ⟨-, hnoted, -⟩ := noteChanges_ok hnote
    have hmade := makeTransactions_onlyNonces node config.txsPerBlock sim
    have hqueue : (sim.withMined node).queue = sim.queue := hmade.queue
    have hnow : (sim.withMined node).nowMs = sim.nowMs := hmade.traffic.nowMs
    have hact := (sim.withMined node).onlyTraffic_act node
      (.localBlock (sim.minedBlock node header))
    obtain ⟨new, henters, hnew⟩ := (sim.withMined node).enters_act node
      (.localBlock (sim.minedBlock node header))
    rw [hnow] at hnew
    refine ⟨(hnoted.nowMs.trans hact.nowMs).trans hnow, new ++ [], ?_, fun event hmem => ?_⟩
    · exact ((Enters.of_queue hqueue).trans henters).trans (.of_queue hnoted.queue)
    · rw [List.append_nil] at hmem
      exact hnew event hmem

/-- **What handling an event enters.** -/
theorem enters_handle {kind : EventKind config.nodes} (h : sim.handle pow kind = .ok sim') :
    ∃ new, sim.Enters sim' new ∧ Follows config sim.nowMs kind new := by
  cases kind with
  -- a delivery enters only messages
  | deliver receiver sender message =>
    obtain ⟨-, hnoted, -⟩ := noteChanges_ok h
    obtain ⟨new, henters, hnew⟩ := sim.receiving.enters_act receiver
      (.message sender.val message sim.nowMs)
    exact ⟨new, henters.trans (.of_queue hnoted.queue), .of_underWay hnew⟩
  -- a tick enters its messages and the next tick
  | tick node =>
    obtain rfl := Except.ok.inj h
    obtain ⟨new, henters, hnew⟩ := sim.enters_act node (.tick sim.nowMs)
    obtain ⟨number, htick⟩ := (sim.act node (.tick sim.nowMs)).enters_scheduleTick node
    rw [(onlyTraffic_act _ node _).nowMs] at htick
    refine ⟨_, henters.trans htick, ?_⟩
    exact .cons ⟨_, number, .tick node⟩ hnew nofun nofun (fun _ _ => rfl)
      (Nat.add_le_add_left tickIntervalMs_le_leadMs _)
  -- mining enters its messages and the next mining, whether or not it found a block
  | mine node =>
    have hnext : ∀ {mined : Simulation config} {new}, mined.nowMs = sim.nowMs →
        sim.Enters mined new → (∀ event ∈ new, UnderWay config sim.nowMs event) →
        ∃ new, sim.Enters (mined.scheduleNextMine node) new ∧
          Follows config sim.nowMs (.mine node) new := by
      intro mined new hnow henters hnew
      obtain ⟨delay, number, hdelay, hmine⟩ := mined.enters_scheduleNextMine node
      rw [hnow] at hmine
      refine ⟨_, henters.trans hmine, ?_⟩
      exact .cons ⟨sim.nowMs + delay, number, .mine node⟩ hnew nofun
        (fun _ _ => Nat.lt_add_of_pos_right hdelay.1) nofun (Nat.add_le_add_left hdelay.2 _)
    unfold handle at h
    dsimp only at h
    -- enabled or not, the next mining is scheduled
    split at h
    · cases hmine : sim.mineOne pow node with
      | error e =>
        rw [hmine] at h
        cases h
      | ok mined =>
        rw [hmine] at h
        obtain rfl := Except.ok.inj h
        obtain ⟨hnow, new, henters, hnew⟩ := enters_mineOne hmine
        exact hnext hnow henters hnew
    · obtain rfl := Except.ok.inj h
      exact hnext rfl (.of_queue rfl) fun _ h => absurd h List.not_mem_nil

end Handle

/-! ### The clock -/

/-- Every node has each of its duties ahead once, and nothing that is ahead has passed. -/
structure Clock (sim : Simulation config) : Prop where
  once : ∀ duty, ahead duty sim.queue.entries = 1
  late : ∀ event ∈ sim.queue.entries, sim.nowMs ≤ event.time

variable (sim) in
/-- The events at the start: messages, and what the nodes seen so far have ahead. -/
theorem enters_scheduleInitialEvents :
    ∃ new, sim.Enters sim.scheduleInitialEvents new ∧
      sim.scheduleInitialEvents.nowMs = sim.nowMs ∧
      (∀ duty, ahead duty new = 1) ∧ ∀ event ∈ new,
        (sim.nowMs ≤ event.time ∧ event.time ≤ sim.nowMs + leadMs config) ∧
          ∀ node, event.what.duty = some (.tick, node) →
            event.time = sim.nowMs + config.tickIntervalMs.toNat := by
  have hfold : ∀ (nodes : List (Fin config.nodes)) (sim : Simulation config), nodes.Nodup →
      ∃ new, sim.Enters
          (nodes.foldl (fun sim node => (sim.scheduleNextMine node).scheduleTick node) sim) new ∧
        (nodes.foldl (fun sim node => (sim.scheduleNextMine node).scheduleTick node) sim).nowMs
          = sim.nowMs ∧
        (∀ duty : Duty × Fin config.nodes, ahead duty new = if duty.2 ∈ nodes then 1 else 0) ∧
        ∀ event ∈ new, (sim.nowMs ≤ event.time ∧ event.time ≤ sim.nowMs + leadMs config) ∧
          ∀ node, event.what.duty = some (.tick, node) →
            event.time = sim.nowMs + config.tickIntervalMs.toNat := by
    intro nodes
    induction nodes with
    | nil => exact fun _ _ => ⟨[], .of_queue rfl, rfl, fun _ => rfl, fun _ h => nomatch h⟩
    | cons node nodes ih =>
      intro sim hnodup
      obtain ⟨hnot, hnodup⟩ := List.nodup_cons.mp hnodup
      obtain ⟨delay, number, hdelay, hmine⟩ := sim.enters_scheduleNextMine node
      obtain ⟨number', htick⟩ := (sim.scheduleNextMine node).enters_scheduleTick node
      obtain ⟨new, henters, hnow, hcount, hlate⟩ :=
        ih ((sim.scheduleNextMine node).scheduleTick node) hnodup
      refine ⟨_, (hmine.trans htick).trans henters, hnow, ?_, ?_⟩
      · rintro ⟨duty, i⟩
        rw [ahead_append, hcount]
        -- what the node itself has ahead is counted once, and nothing else is new
        by_cases hi : i = node
        · subst hi
          rw [if_neg hnot, if_pos List.mem_cons_self]
          cases duty <;> simp [ahead, EventKind.duty]
        · have hothers : ahead (duty, i) [⟨(sim.scheduleNextMine node).nowMs
                + config.tickIntervalMs.toNat, number', .tick node⟩,
              ⟨sim.nowMs + delay, number, .mine node⟩] = 0 := by
            have hne : node ≠ i := Ne.symm hi
            simp [ahead, EventKind.duty, hne]
          show _ + ahead (duty, i) [_, _] = _
          rw [hothers, Nat.add_zero]
          exact if_congr (List.mem_cons.trans (or_iff_right hi)).symm rfl rfl
      · intro event hmem
        obtain hnew | hfirst := List.mem_append.mp hmem
        · exact hlate event hnew
        · rcases List.mem_cons.mp hfirst with rfl | hfirst
          · -- the tick
            refine ⟨⟨Nat.le_add_right _ _, ?_⟩, fun _ _ => rfl⟩
            exact Nat.add_le_add_left tickIntervalMs_le_leadMs _
          · -- the block
            rw [List.mem_singleton.mp hfirst]
            exact ⟨⟨Nat.le_add_right _ _, Nat.add_le_add_left hdelay.2 _⟩, nofun⟩
  obtain ⟨new, henters, hnow, hcount, hlate⟩ :=
    hfold (List.finRange config.nodes) sim (List.nodup_finRange _)
  refine ⟨new, henters, hnow, fun duty => ?_, hlate⟩
  rw [hcount, if_pos (List.mem_finRange _)]

variable (sim) in
/-- Connecting takes no time and sends messages only. -/
theorem enters_connectAll [HeaderHash] :
    ∃ new, sim.Enters sim.connectAll new ∧ sim.connectAll.nowMs = sim.nowMs ∧
      ∀ event ∈ new, UnderWay config sim.nowMs event := by
  unfold connectAll
  generalize (List.finRange config.nodes).flatMap _ = pairs
  induction pairs generalizing sim with
  | nil => exact ⟨[], .of_queue rfl, rfl, fun _ h => nomatch h⟩
  | cons pair pairs ih =>
    rw [List.foldl_cons]
    -- a connection is an `act`, which enters messages only
    have hact : sim.connect pair.1 pair.2 = sim.act pair.1 (.connect pair.2.val) := rfl
    obtain ⟨new, henters, hnew⟩ := sim.enters_act pair.1 (.connect pair.2.val)
    obtain ⟨more, hmore, hnow, hlater⟩ := @ih (sim.act pair.1 (.connect pair.2.val))
    rw [(onlyTraffic_act _ pair.1 _).nowMs] at hnow hlater
    refine ⟨more ++ new, henters.trans hmore, hnow, fun event hmem => ?_⟩
    exact (List.mem_append.mp hmem).elim (hlater event) (hnew event)

section Runs

variable [HeaderHash] [TxCodec] [Evm] [Trie] [FeeRule] [CodeHash] [Signer] {pow : PowHash}

omit [TxCodec] [Evm] in
/-- **The queue at the start** holds messages and each duty once, and the first ticks. -/
theorem entries_new (h : Simulation.new pow config = .ok sim) :
    sim.nowMs = genesisMs ∧ ∃ messages duties : Events config,
      sim.queue.entries.Perm (duties ++ messages) ∧
      (∀ event ∈ messages, UnderWay config genesisMs event) ∧ (∀ duty, ahead duty duties = 1) ∧
      ∀ event ∈ duties, (genesisMs ≤ event.time ∧ event.time ≤ genesisMs + leadMs config) ∧
        ∀ node, event.what.duty = some (.tick, node) →
          event.time = genesisMs + config.tickIntervalMs.toNat := by
  unfold Simulation.new at h
  cases hgenesis : WorldState.loadGenesis (genesisAlloc config) with
  | error e =>
    rw [hgenesis] at h
    cases h
  | ok genesisState =>
    rw [hgenesis] at h
    obtain rfl := Except.ok.inj h
    -- the handshakes of the start, then the two duties of every node
    obtain ⟨messages, henters, hnow, hmessages⟩ :=
      (initial pow config genesisState).enters_connectAll
    obtain ⟨duties, hmore, hnow', hcount, hlate⟩ :=
      (initial pow config genesisState).connectAll.enters_scheduleInitialEvents
    have hempty : (initial pow config genesisState).queue.entries = [] := rfl
    have hall := henters.trans hmore
    unfold Enters at hall
    rw [hempty, List.append_nil] at hall
    rw [hnow] at hlate
    exact ⟨hnow'.trans hnow, messages, duties, hall, hmessages, hcount, hlate⟩

omit [TxCodec] [Evm] in
theorem clock_new (h : Simulation.new pow config = .ok sim) : sim.Clock := by
  obtain ⟨hnow, messages, duties, hall, hmessages, hcount, hlate⟩ := entries_new h
  refine ⟨fun duty => ?_, fun event hmem => ?_⟩
  · rw [ahead_perm duty hall, ahead_append, hcount, ahead_underWay hmessages]
  · rw [hnow]
    obtain hmem | hmem := List.mem_append.mp (hall.mem_iff.mp hmem)
    · exact (hlate event hmem).1.1
    · exact (Nat.le_add_right _ _).trans (hmessages event hmem).late

omit [CodeHash] in
/-- **An event moves the clock on** to its time, and a duty it was about is ahead again. -/
theorem Clock.handle {event : Appointment (EventKind config.nodes)}
    {queue : Agenda (EventKind config.nodes)} (h : sim.Clock)
    (hnext : sim.queue.next = some (event, queue))
    (hok : (sim.due event queue).handle pow event.what = .ok sim') : sim'.Clock := by
  obtain ⟨new, henters, hfollows⟩ := enters_handle hok
  unfold Enters at henters
  have hentries := (Agenda.entries_of_next hnext).1
  -- every duty stays once in the queue: the one handled is scheduled again
  refine ⟨fun duty => ?_, fun other hmem => ?_⟩
  · have honce := h.once duty
    rw [hentries, ahead, List.countP_cons] at honce
    simp only [decide_eq_true_eq] at honce
    rw [ahead_perm duty henters, ahead_append, hfollows.again, Nat.add_comm]
    exact honce
  · -- what is left is not before the event handled
    rw [nowMs_handle hok]
    show event.time ≤ other.time
    obtain hnew | hold := List.mem_append.mp (henters.mem_iff.mp hmem)
    · cases hduty : other.what.duty with
      | none => exact (Nat.le_add_right _ _).trans (hfollows.message other hnew hduty)
      | some duty =>
        obtain ⟨duty, node⟩ := duty
        cases duty with
        | mine => exact (hfollows.mine other hnew node hduty).le
        | tick => exact (hfollows.tick other hnew node hduty) ▸ Nat.le_add_right _ _
    · exact (Agenda.before_of_next hnext other hold).time_le

/-- **The clock is right in every state that is reached.** -/
theorem Reached.clock {log : List (MinedBlock config.nodes)} (h : Reached pow sim log) :
    sim.Clock := by
  induction h with
  | start h => exact clock_new h
  | event _ hnext hok ih => exact ih.handle hnext hok
  | suspend _ _ ih => exact ⟨ih.once, ih.late⟩
  | wait _ _ hpending ih => exact ⟨ih.once, hpending⟩

/-! ### Runs come to an end -/

omit [CodeHash] in
/-- A turn takes an event and enters later ones. -/
theorem worksOff_turn (hlatency : 1 ≤ config.link.minLatencyMs.toNat)
    (htick : 1 ≤ config.tickIntervalMs.toNat) {deadline : ℕ}
    (h : sim.turn pow deadline = some (.ok sim')) :
    Agenda.WorksOff deadline sim.queue sim'.queue := by
  obtain ⟨event, queue, hnext, hdue, hok⟩ := turn_eq_some h
  obtain ⟨new, henters, hfollows⟩ := enters_handle hok.symm
  -- what an event enters is later than it: here every delay is at least 1
  refine ⟨event, queue.entries, new, ?_, hdue, henters, fun other hmem => ?_⟩
  · rw [(Agenda.entries_of_next hnext).1]
  · cases hduty : other.what.duty with
    | none => exact (Nat.lt_add_of_pos_right hlatency).trans_le (hfollows.message other hmem hduty)
    | some duty =>
      obtain ⟨duty, node⟩ := duty
      cases duty with
      | mine => exact hfollows.mine other hmem node hduty
      | tick => exact (hfollows.tick other hmem node hduty) ▸ Nat.lt_add_of_pos_right htick

omit [CodeHash] in
theorem exists_runUntil (hlatency : 1 ≤ config.link.minLatencyMs.toNat)
    (htick : 1 ≤ config.tickIntervalMs.toNat) (deadline : ℕ) (sim : Simulation config) :
    ∃ n result, sim.runUntil pow deadline n = some result := by
  -- a turn works the queue off, which cannot go on
  induction hqueue : sim.queue using (Agenda.wellFounded_worksOff deadline).induction
    generalizing sim with
  | h queue ih =>
    subst hqueue
    cases hturn : sim.turn pow deadline with
    | none =>
      refine ⟨1, .ok { sim with nowMs := deadline }, ?_⟩
      unfold runUntil
      rw [hturn]
    | some result =>
      cases result with
      | error e =>
        refine ⟨1, .error e, ?_⟩
        unfold runUntil
        rw [hturn]
      | ok sim' =>
        obtain ⟨n, result, hrest⟩ := ih sim'.queue (worksOff_turn hlatency htick hturn) sim' rfl
        refine ⟨n + 1, result, ?_⟩
        unfold runUntil
        rw [hturn]
        exact hrest

/-! ### Runs in parts -/

omit [CodeHash] in
/-- A longer allowance of events changes nothing once there is an answer. -/
theorem runUntil_add {deadline n : ℕ} {result : Except ExecutionError (Simulation config)}
    (h : sim.runUntil pow deadline n = some result) (more : ℕ) :
    sim.runUntil pow deadline (n + more) = some result := by
  induction n generalizing sim with
  | zero => cases h
  | succ n ih =>
    rw [Nat.succ_add]
    unfold runUntil at h ⊢
    split at h
    · exact h
    · exact h
    · exact ih h

omit [CodeHash] in
/-- The clock is set by the first event, or at the end. -/
theorem runUntil_wait (time deadline n : ℕ) (sim : Simulation config) :
    ({ sim with nowMs := time } : Simulation config).runUntil pow deadline n
      = sim.runUntil pow deadline n := by
  cases n <;> rfl

omit [CodeHash] in
theorem nowMs_runUntil {deadline n : ℕ} (h : sim.runUntil pow deadline n = some (.ok sim')) :
    sim'.nowMs = deadline := by
  induction n generalizing sim with
  | zero => cases h
  | succ n ih =>
    unfold runUntil at h
    split at h
    · rw [← Except.ok.inj (Option.some.inj h)]
    · cases Option.some.inj h
    · exact ih h

omit [CodeHash] in
/-- What is due by a deadline is due by a later one. -/
theorem turn_mono {deadline later : ℕ} (hle : deadline ≤ later)
    {result : Except ExecutionError (Simulation config)}
    (h : sim.turn pow deadline = some result) : sim.turn pow later = some result := by
  obtain ⟨event, queue, hnext, hdue, rfl⟩ := turn_eq_some h
  unfold turn
  rw [hnext]
  exact if_neg (not_lt.mpr (hdue.trans hle))

omit [CodeHash] in
/-- **A run goes on** from where it has stopped. -/
theorem runUntil_trans {deadline later n : ℕ} (hle : deadline ≤ later)
    (h : sim.runUntil pow deadline n = some (.ok sim')) {m : ℕ}
    {result : Except ExecutionError (Simulation config)}
    (h' : sim'.runUntil pow later m = some result) :
    sim.runUntil pow later (n + m) = some result := by
  -- induction on the turns of the first run
  induction n generalizing sim with
  | zero => cases h
  | succ n ih =>
    unfold runUntil at h
    split at h
    · -- no event is due, so that both runs start from the same queue
      rw [← Except.ok.inj (Option.some.inj h), runUntil_wait] at h'
      rw [Nat.add_comm]
      exact runUntil_add h' (n + 1)
    · cases Option.some.inj h
    · next hturn =>
      rw [Nat.succ_add]
      unfold runUntil
      rw [turn_mono hle hturn]
      exact ih h

/-! ### Times in 64 bits -/

/-- Every time of a simulation is one of 64 bits. -/
structure TimesFit (sim : Simulation config) : Prop where
  now : sim.nowMs < 2 ^ 64
  ahead : ∀ event ∈ sim.queue.entries, event.time < 2 ^ 64

omit [TxCodec] [Evm] in
theorem timesFit_new (hlead : genesisMs + leadMs config < 2 ^ 64)
    (h : Simulation.new pow config = .ok sim) : sim.TimesFit := by
  obtain ⟨hnow, messages, duties, hall, hmessages, -, hduties⟩ := entries_new h
  refine ⟨hnow ▸ (Nat.le_add_right _ _).trans_lt hlead, fun event hmem => ?_⟩
  obtain hmem | hmem := List.mem_append.mp (hall.mem_iff.mp hmem)
  · exact (hduties event hmem).1.2.trans_lt hlead
  · exact (hmessages event hmem).soon.trans_lt hlead

omit [CodeHash] in
/-- **A turn enters nothing that is too far ahead.** -/
theorem TimesFit.turn {deadline : ℕ} (hlead : deadline + leadMs config < 2 ^ 64) (h : sim.TimesFit)
    (hturn : sim.turn pow deadline = some (.ok sim')) : sim'.TimesFit := by
  obtain ⟨event, queue, hnext, hdue, hok⟩ := turn_eq_some hturn
  obtain ⟨new, henters, hfollows⟩ := enters_handle hok.symm
  unfold Enters at henters
  have hfits : event.time + leadMs config < 2 ^ 64 :=
    (Nat.add_le_add_right hdue _).trans_lt hlead
  refine ⟨?_, fun other hmem => ?_⟩
  · rw [nowMs_handle hok.symm]
    exact (Nat.le_add_right event.time _).trans_lt hfits
  · obtain hnew | hold := List.mem_append.mp (henters.mem_iff.mp hmem)
    · exact (hfollows.soon other hnew).trans_lt hfits
    · exact h.ahead other ((Agenda.mem_of_next hnext).mpr (Or.inr hold))

/-- On the way to a deadline a simulation passes through another. -/
def Visits (pow : PowHash) (deadline : ℕ) : Simulation config → Simulation config → Prop :=
  Relation.ReflTransGen fun sim sim' => sim.turn pow deadline = some (.ok sim')

omit [CodeHash] in
/-- **No time gets past 64 bits on the way to a deadline.** -/
theorem TimesFit.of_visits {deadline : ℕ} (hlead : deadline + leadMs config < 2 ^ 64)
    (h : sim.TimesFit) (hvisits : Visits pow deadline sim sim') : sim'.TimesFit := by
  induction hvisits with
  | refl => exact h
  | tail _ hturn ih => exact ih.turn hlead hturn

/-! ### Running for a time -/

/-- Running for a time comes to a result. -/
def Ends (pow : PowHash) (sim : Simulation config) (durationMs : ℕ)
    (result : Except ExecutionError (Simulation config)) : Prop :=
  ∃ n, sim.runFor pow n durationMs = some result

omit [CodeHash] in
theorem Ends.unique {durationMs : ℕ} {result result' : Except ExecutionError (Simulation config)}
    (h : sim.Ends pow durationMs result) (h' : sim.Ends pow durationMs result') :
    result = result' := by
  obtain ⟨n, hn⟩ := h
  obtain ⟨m, hm⟩ := h'
  -- the longer allowance of the two gives both answers
  have hn := runUntil_add hn m
  have hm := runUntil_add hm n
  rw [Nat.add_comm m n, hn] at hm
  exact Option.some.inj hm

omit [CodeHash] in
/-- What is run in two parts is run. -/
theorem Ends.append {firstMs moreMs : ℕ} {result : Except ExecutionError (Simulation config)}
    (h : sim.Ends pow firstMs (.ok sim')) (h' : sim'.Ends pow moreMs result) :
    sim.Ends pow (firstMs + moreMs) result := by
  obtain ⟨n, hn⟩ := h
  obtain ⟨m, hm⟩ := h'
  refine ⟨n + m, runUntil_trans (Nat.add_le_add_left (Nat.le_add_right _ _) _) hn ?_⟩
  -- the first part ends at its deadline, where the second one starts
  have hnow := nowMs_runUntil hn
  unfold runFor at hm
  rw [hnow, Nat.add_assoc] at hm
  exact hm

omit [CodeHash] in
theorem exists_ends (hlatency : 1 ≤ config.link.minLatencyMs.toNat)
    (htick : 1 ≤ config.tickIntervalMs.toNat) (sim : Simulation config) (durationMs : ℕ) :
    ∃ result, sim.Ends pow durationMs result := by
  obtain ⟨n, result, h⟩ := exists_runUntil hlatency htick (sim.nowMs + durationMs) sim
  exact ⟨result, n, h⟩

omit [CodeHash] in
/-- A run is looked at by evaluating it. -/
theorem exists_ends_of_elim {n durationMs : ℕ} {p : Simulation config → Bool}
    (h : ((sim.runFor pow n durationMs).bind Except.toOption).elim false p = true) :
    ∃ sim', sim.Ends pow durationMs (.ok sim') ∧ p sim' = true := by
  cases hrun : sim.runFor pow n durationMs with
  | none =>
    rw [hrun] at h
    cases h
  | some result =>
    rw [hrun] at h
    cases result with
    | error e => cases h
    | ok sim' => exact ⟨sim', ⟨n, hrun⟩, h⟩

omit [CodeHash] in
/-- **A run comes to an end**, with one result, if ticks and messages take time and its deadline is
as far below `2 ^ 64` as an event can be ahead. All its times fit into 64 bits, and it may be run in
parts. -/
theorem run_returns (hlatency : 1 ≤ config.link.minLatencyMs.toNat)
    (htick : 1 ≤ config.tickIntervalMs.toNat) (sim : Simulation config) (durationMs : ℕ)
    (hlead : sim.nowMs + durationMs + leadMs config < 2 ^ 64) (hfit : sim.TimesFit) :
    (∃! result, sim.Ends pow durationMs result) ∧
      (∀ sim', Visits pow (sim.nowMs + durationMs) sim sim' → sim'.TimesFit) ∧
      ∀ firstMs moreMs, firstMs + moreMs = durationMs → ∀ sim', sim.Ends pow firstMs (.ok sim') →
        ∀ result, sim.Ends pow durationMs result ↔ sim'.Ends pow moreMs result := by
  refine ⟨?_, fun sim' => hfit.of_visits hlead, ?_⟩
  · obtain ⟨result, h⟩ := exists_ends hlatency htick sim durationMs
    exact ⟨result, h, fun result' h' => h'.unique h⟩
  · rintro firstMs moreMs rfl sim' hfirst result
    refine ⟨fun h => ?_, hfirst.append⟩
    -- the second part has a result, which is the result of the whole
    obtain ⟨result', h'⟩ := exists_ends hlatency htick sim' moreMs
    rwa [h.unique (hfirst.append h')]

end Runs

section TwoNodes

open Sample (easyPow)
open TwoNodes Chainname.Wallet WorldState.EmptyAccount

/-- Two nodes run for five and a half seconds, in one go or in two. -/
theorem run_returns_twoNodes : ∃ start next middle sim : Simulation twoNodes,
    Simulation.new easyPow twoNodes = .ok start ∧ start.queue.entries.length = 6 ∧
    start.turn easyPow (start.nowMs + 5500) = some (.ok next) ∧ next.TimesFit ∧
    start.Ends easyPow 3000 (.ok middle) ∧ middle.mined = 3 ∧
    middle.Ends easyPow 2500 (.ok sim) ∧ sim.mined = 4 := by
  -- what is evaluated: the queue at the start, its first event, and the two runs
  have hlength : ((Simulation.new easyPow twoNodes).toOption.elim false fun start =>
      decide (start.queue.entries.length = 6)) = true := by
    decide +kernel
  have hturn : ((Simulation.new easyPow twoNodes).toOption.elim false fun start =>
      ((start.turn easyPow (genesisMs + 5500)).bind Except.toOption).isSome) = true := by
    decide +kernel
  have hpart : ((Simulation.new easyPow twoNodes).toOption.elim false fun start =>
      ((start.runFor easyPow 300 3000).bind Except.toOption).elim false fun middle =>
        decide (middle.mined = 3)) = true := by
    decide +kernel
  have hwhole : ((Simulation.new easyPow twoNodes).toOption.elim false fun start =>
      ((start.runFor easyPow 300 5500).bind Except.toOption).elim false fun sim =>
        decide (sim.mined = 4)) = true := by
    decide +kernel
  cases hstart : Simulation.new easyPow twoNodes with
  | error e =>
    rw [hstart] at hlength
    cases hlength
  | ok start =>
    rw [hstart] at hlength hturn hpart hwhole
    have hnow : start.nowMs = genesisMs := (entries_new hstart).1
    rw [← hnow] at hturn
    obtain ⟨next, hnext⟩ := Option.isSome_iff_exists.mp hturn
    obtain ⟨result, hresult, hok⟩ := Option.bind_eq_some_iff.mp hnext
    cases result with
    | error e => cases hok
    | ok next' =>
      obtain ⟨middle, hmiddle, hmined⟩ := exists_ends_of_elim hpart
      obtain ⟨sim, hsim, hmined'⟩ := exists_ends_of_elim hwhole
      obtain ⟨-, hvisited, hparts⟩ := run_returns (by decide) (by decide) start 5500
        (by rw [hnow]; decide) (timesFit_new (by decide) hstart)
      exact ⟨start, next', middle, sim, rfl, of_decide_eq_true hlength, hresult,
        hvisited next' (.single hresult), hmiddle, of_decide_eq_true hmined,
        (hparts 3000 2500 rfl middle hmiddle (.ok sim)).mp hsim, of_decide_eq_true hmined'⟩

end TwoNodes

section Stuck

variable [HeaderHash] [TxCodec] [Evm] [Trie] [FeeRule] [CodeHash] [Signer] {pow : PowHash}

/-- A tick at the start, or before. -/
def Stuck (sim : Simulation config) : Prop :=
  ∃ event ∈ sim.queue.entries, ∃ node, event.what.duty = some (.tick, node) ∧
    event.time ≤ genesisMs

omit [CodeHash] in
/-- A tick that takes no time is ahead again when it has been handled. -/
theorem Stuck.turn (htick : config.tickIntervalMs.toNat = 0) {deadline : ℕ} (h : sim.Stuck)
    (hturn : sim.turn pow deadline = some (.ok sim')) : sim'.Stuck := by
  obtain ⟨event, queue, hnext, -, hok⟩ := turn_eq_some hturn
  obtain ⟨new, henters, hfollows⟩ := enters_handle hok.symm
  unfold Enters at henters
  obtain ⟨stuck, hmem, node, hduty, htime⟩ := h
  -- the stuck tick itself was handled: its successor is due at the same time
  obtain rfl | hold := (Agenda.mem_of_next hnext).mp hmem
  · have hagain := hfollows.again (.tick, node)
    rw [if_pos hduty] at hagain
    obtain ⟨next, hnew, hnextDuty⟩ := List.countP_pos_iff.mp (Nat.lt_of_lt_of_eq Nat.one_pos hagain.symm)
    refine ⟨next, henters.mem_iff.mpr (List.mem_append_left _ hnew), node,
      of_decide_eq_true hnextDuty, ?_⟩
    rw [hfollows.tick next hnew node (of_decide_eq_true hnextDuty), htick]
    exact htime
  · -- another event was handled: the tick is still in the queue
    exact ⟨stuck, henters.mem_iff.mpr (List.mem_append_right _ hold), node, hduty, htime⟩

omit [CodeHash] in
/-- **A run does not get past a tick that takes no time.** -/
theorem Stuck.not_runUntil (htick : config.tickIntervalMs.toNat = 0) {deadline : ℕ}
    (hlate : genesisMs ≤ deadline) (h : sim.Stuck) (n : ℕ) :
    sim.runUntil pow deadline n ≠ some (.ok sim') := by
  induction n generalizing sim with
  | zero => exact fun hrun => nomatch hrun
  | succ n ih =>
    intro hrun
    unfold runUntil at hrun
    -- with the tick in the queue there is always an event due
    split at hrun
    · next hnone =>
      obtain ⟨event, hmem, -, -, htime⟩ := h
      exact absurd (htime.trans hlate) (not_le.mpr (turn_eq_none hnone event hmem))
    · cases Option.some.inj hrun
    · next hturn => exact ih (h.turn htick hturn) hrun

/-- **Ticks must take time.** If they take none, no run of a simulation that has a node ever gets
to its end, however short it is. -/
theorem run_never_returns (htick : config.tickIntervalMs.toNat = 0) (hnodes : 0 < config.nodes)
    (h : Simulation.new pow config = .ok sim) (durationMs : ℕ) (sim' : Simulation config) :
    ¬ sim.Ends pow durationMs (.ok sim') := by
  obtain ⟨hnow, messages, duties, hall, -, hcount, hlate⟩ := entries_new h
  -- node 0's first tick, due at genesis when the interval is 0
  obtain ⟨event, hmem, hduty⟩ :=
    List.countP_pos_iff.mp (Nat.lt_of_lt_of_eq Nat.one_pos (hcount (.tick, ⟨0, hnodes⟩)).symm)
  have hstuck : sim.Stuck := by
    refine ⟨event, hall.mem_iff.mpr (List.mem_append_left _ hmem), _, of_decide_eq_true hduty, ?_⟩
    rw [(hlate event hmem).2 _ (of_decide_eq_true hduty), htick]
    exact le_rfl
  rintro ⟨n, hrun⟩
  refine hstuck.not_runUntil htick ?_ n hrun
  rw [hnow]
  exact Nat.le_add_right _ _

end Stuck

end Simulation

end Chainname.Testkit
