import Chainname.Net.Sync

/-!
# What each operation of the state machine does

Most operations touch one part of the state only. `OnlyPeers` says that what is known of
the peers may have changed and nothing else, `SamePool` that blocks, orphans and bodies are
as they were, `SamePeers` that a view of the peers is as it was, and `SameHandshakes` that no
handshake has moved.

The loops come with a rule each (`tryChildren_induct`, `resolve_induct`, `deliver_induct`):
what one turn keeps, the loop keeps.
-/

namespace Chainname.DagSync

/-- Nothing but what is known of the peers has changed. -/
def OnlyPeers (S T : DagSync) : Prop := T = { S with peers := T.peers }

/-- Blocks, orphans and bodies are as they were. -/
structure SamePool (S T : DagSync) : Prop where
  dag : T.dag = S.dag
  gate : T.gate = S.gate
  config : T.config = S.config
  orphans : T.orphans = S.orphans
  orphanOrder : T.orphanOrder = S.orphanOrder
  waitingOn : T.waitingOn = S.waitingOn
  bodies : T.bodies = S.bodies
  accepted : T.accepted = S.accepted

/-- What a node is set up with is as it was. -/
structure SameSetup (S T : DagSync) : Prop where
  gate : T.gate = S.gate
  config : T.config = S.config

/-- Some headers may have been offered to the DAG. -/
def Grown [HeaderHash] (S T : DagSync) : Prop :=
  ∃ headers : List Header, T.dag = S.dag.addBlocks headers

/-- Who is connected, and how far the handshakes have got, is as it was. -/
def SameHandshakes (S T : DagSync) : Prop :=
  ∀ q, (T.peers.lookup q).map PeerState.handshake = (S.peers.lookup q).map PeerState.handshake

/-- Who is connected, and this view of each peer, is as it was. -/
def SamePeers {γ : Type} (view : PeerState → γ) (S T : DagSync) : Prop :=
  ∀ q, (T.peers.lookup q).map view = (S.peers.lookup q).map view

variable {S T U : DagSync}

section Relations

variable {γ : Type} {view : PeerState → γ}

theorem OnlyPeers.refl (S : DagSync) : S.OnlyPeers S := rfl

theorem OnlyPeers.trans (h : S.OnlyPeers T) (h' : T.OnlyPeers U) : S.OnlyPeers U := by
  unfold OnlyPeers at h h' ⊢
  rw [h'.trans (congrArg (fun V : DagSync => { V with peers := U.peers }) h)]

theorem OnlyPeers.requested (h : S.OnlyPeers T) : T.requested = S.requested := by
  unfold OnlyPeers at h
  rw [h]

theorem OnlyPeers.samePool (h : S.OnlyPeers T) : S.SamePool T := by
  unfold OnlyPeers at h
  rw [h]
  exact ⟨rfl, rfl, rfl, rfl, rfl, rfl, rfl, rfl⟩

theorem SamePool.refl (S : DagSync) : S.SamePool S := ⟨rfl, rfl, rfl, rfl, rfl, rfl, rfl, rfl⟩

theorem SamePool.trans (h : S.SamePool T) (h' : T.SamePool U) : S.SamePool U where
  dag := h'.dag.trans h.dag
  gate := h'.gate.trans h.gate
  config := h'.config.trans h.config
  orphans := h'.orphans.trans h.orphans
  orphanOrder := h'.orphanOrder.trans h.orphanOrder
  waitingOn := h'.waitingOn.trans h.waitingOn
  bodies := h'.bodies.trans h.bodies
  accepted := h'.accepted.trans h.accepted

theorem SameSetup.trans (h : S.SameSetup T) (h' : T.SameSetup U) : S.SameSetup U :=
  ⟨h'.gate.trans h.gate, h'.config.trans h.config⟩

theorem SamePool.sameSetup (h : S.SamePool T) : S.SameSetup T := ⟨h.gate, h.config⟩

theorem SamePool.holds_eq (h : S.SamePool T) (b : BlockHash) : T.holds b = S.holds b := by
  unfold holds
  rw [h.dag, h.orphans]

theorem holds_eq_true_iff {b : BlockHash} :
    S.holds b = true ↔ b ∈ S.dag.headers ∨ b ∈ S.orphans := by
  unfold holds
  rw [Bool.or_eq_true, decide_eq_true_eq, decide_eq_true_eq]

theorem holds_eq_false_iff {b : BlockHash} :
    S.holds b = false ↔ b ∉ S.dag.headers ∧ b ∉ S.orphans := by
  rw [← Bool.not_eq_true, holds_eq_true_iff, not_or]

theorem Grown.of_eq [HeaderHash] (h : T.dag = S.dag) : S.Grown T := ⟨[], h⟩

theorem Grown.of_addBlock [HeaderHash] {header : Header} (h : T.dag = (S.dag.addBlock header).1) :
    S.Grown T :=
  ⟨[header], h⟩

theorem Grown.trans [HeaderHash] (h : S.Grown T) (h' : T.Grown U) : S.Grown U := by
  obtain ⟨headers, hT⟩ := h
  obtain ⟨headers', hU⟩ := h'
  refine ⟨headers ++ headers', ?_⟩
  rw [hU, hT]
  exact (DagStore.addBlocks_append _ headers headers').symm

theorem Grown.valid [HeaderHash] (h : S.Grown T) (hS : S.dag.Valid) : T.dag.Valid := by
  obtain ⟨headers, hT⟩ := h
  rw [hT]
  exact hS.addBlocks headers

/-- What is stored stays stored. -/
theorem Grown.mem [HeaderHash] (h : S.Grown T) {b : BlockHash} (hb : b ∈ S.dag.headers) :
    b ∈ T.dag.headers := by
  obtain ⟨headers, hT⟩ := h
  obtain ⟨header, hl⟩ := Maps.mem_iff_exists_lookup.mp hb
  rw [hT]
  exact Maps.mem_of_lookup (DagStore.lookup_addBlocks hl headers)

theorem SamePeers.refl (S : DagSync) : S.SamePeers view S := fun _ => rfl

theorem SamePeers.trans (h : S.SamePeers view T) (h' : T.SamePeers view U) : S.SamePeers view U :=
  fun q => (h' q).trans (h q)

theorem SamePeers.of_eq (h : T.peers = S.peers) : S.SamePeers view T := by
  intro q
  rw [h]

theorem SamePeers.mem_peers (h : S.SamePeers view T) (q : PeerId) : q ∈ T.peers ↔ q ∈ S.peers := by
  have hq := congrArg Option.isSome (h q)
  rw [Option.isSome_map, Option.isSome_map] at hq
  rw [← Finmap.lookup_isSome, ← Finmap.lookup_isSome, hq]

theorem SameHandshakes.of_eq (h : T.peers = S.peers) : S.SameHandshakes T := SamePeers.of_eq h

theorem isReady_eq (S : DagSync) (q : PeerId) :
    S.isReady q = ((S.peers.lookup q).map PeerState.handshake == some .ready) := by
  unfold isReady
  cases S.peers.lookup q with
  | none => rfl
  | some state =>
    rw [Option.any_some, Option.map_some, Option.some_beq_some]
    rfl

theorem SameHandshakes.isReady (h : S.SameHandshakes T) (q : PeerId) :
    T.isReady q = S.isReady q := by
  rw [isReady_eq, isReady_eq, h q]

theorem SameHandshakes.mem_peers (h : S.SameHandshakes T) (q : PeerId) :
    q ∈ T.peers ↔ q ∈ S.peers :=
  SamePeers.mem_peers h q

/-- A ready peer is connected. -/
theorem mem_peers_of_isReady {q : PeerId} (h : S.isReady q = true) : q ∈ S.peers := by
  rw [← Finmap.lookup_isSome]
  unfold DagSync.isReady at h
  cases hl : S.peers.lookup q with
  | none => rw [hl] at h; cases h
  | some state => rfl

end Relations

/-! ### Peers -/

section Peers

variable {γ : Type} {view : PeerState → γ}

theorem lookup_modifyPeer (peer q : PeerId) (f : PeerState → PeerState) :
    (S.modifyPeer peer f).peers.lookup q
      = if q = peer then (S.peers.lookup peer).map f else S.peers.lookup q := by
  unfold modifyPeer
  cases hl : S.peers.lookup peer with
  | none =>
    dsimp only
    split
    · next he => rw [he, hl]; rfl
    · rfl
  | some state => exact Maps.lookup_insert _ _ _ _

theorem onlyPeers_modifyPeer (peer : PeerId) (f : PeerState → PeerState) :
    S.OnlyPeers (S.modifyPeer peer f) := by
  unfold modifyPeer
  split
  · exact OnlyPeers.refl S
  · rfl

theorem samePeers_modifyPeer (peer : PeerId) {f : PeerState → PeerState}
    (hf : ∀ state, view (f state) = view state) : S.SamePeers view (S.modifyPeer peer f) := by
  intro q
  rw [lookup_modifyPeer]
  split
  · next he =>
    rw [he, Option.map_map]
    exact congrArg (fun g => Option.map g _) (funext hf)
  · rfl

theorem onlyPeers_penalise (peer : PeerId) (what : Misbehaviour) (reason : String) :
    S.OnlyPeers (S.penalise peer what reason).1 := by
  unfold DagSync.penalise
  split
  · exact OnlyPeers.refl S
  · rfl

theorem samePeers_penalise (hview : PeerState.Steady view) (peer : PeerId) (what : Misbehaviour)
    (reason : String) : S.SamePeers view (S.penalise peer what reason).1 := by
  intro q
  unfold DagSync.penalise
  cases hl : S.peers.lookup peer with
  | none => rfl
  | some state =>
    dsimp only
    rw [Maps.lookup_insert]
    split
    · next he => rw [he, hl, Option.map_some, Option.map_some, hview.penalise]
    · rfl

theorem sameHandshakes_penalise (peer : PeerId) (what : Misbehaviour) (reason : String) :
    S.SameHandshakes (S.penalise peer what reason).1 :=
  samePeers_penalise PeerState.steady_handshake peer what reason

theorem onlyPeers_announce (hash : BlockHash) (exclude : Option PeerId) :
    S.OnlyPeers (S.announce hash exclude).1 := by
  unfold announce
  dsimp only
  generalize S.peersWith _ = targets
  induction targets generalizing S with
  | nil => exact OnlyPeers.refl S
  | cons target targets ih => exact (onlyPeers_modifyPeer target _).trans ih

theorem samePeers_announce (hview : PeerState.Steady view) (hash : BlockHash)
    (exclude : Option PeerId) : S.SamePeers view (S.announce hash exclude).1 := by
  unfold announce
  dsimp only
  generalize S.peersWith _ = targets
  induction targets generalizing S with
  | nil => exact SamePeers.refl S
  | cons target targets ih =>
    exact (samePeers_modifyPeer target fun state => hview.noteKnown state hash).trans ih

end Peers

/-! ### Requests -/

section Requests

theorem samePool_requestFrom (peer : PeerId) (hashes : List BlockHash) (now : ℕ) :
    S.SamePool (S.requestFrom peer hashes now).1 := by
  unfold requestFrom
  dsimp only
  split
  · exact SamePool.refl S
  · exact ⟨rfl, rfl, rfl, rfl, rfl, rfl, rfl, rfl⟩

theorem peers_requestFrom (peer : PeerId) (hashes : List BlockHash) (now : ℕ) :
    (S.requestFrom peer hashes now).1.peers = S.peers := by
  unfold requestFrom
  dsimp only
  split
  · rfl
  · rfl

/-- What a request asks for. -/
def wanted (S : DagSync) (hashes : List BlockHash) : List BlockHash :=
  (hashes.filter fun h => h ∉ S.requested).take maxInvEntries

/-- **The requests after one more.** -/
theorem lookup_requestFrom (peer : PeerId) (hashes : List BlockHash) (now : ℕ) (b : BlockHash) :
    (S.requestFrom peer hashes now).1.requested.lookup b
      = if b ∈ S.wanted hashes then some (peer, now) else S.requested.lookup b := by
  -- the fold over the wanted hashes, each written with this peer and time
  have hloop : ∀ (l : List BlockHash) (m : Map BlockHash (PeerId × ℕ)),
      (l.foldl (fun requested h => requested.insert h (peer, now)) m).lookup b
        = if b ∈ l then some (peer, now) else m.lookup b := by
    intro l
    induction l with
    | nil => exact fun m => (if_neg List.not_mem_nil).symm
    | cons h l ih =>
      intro m
      rw [List.foldl_cons, ih, Maps.lookup_insert]
      by_cases hb : b = h
      · simp [hb]
      · simp [hb]
  unfold requestFrom
  dsimp only
  split
  · next hnil => exact (if_neg (by unfold wanted; rw [hnil]; exact List.not_mem_nil)).symm
  · exact hloop _ _

theorem samePool_requestBuckets (now : ℕ) (buckets : List (PeerId × List BlockHash))
    (actions : List Action) : S.SamePool (requestBuckets now buckets S actions).1 := by
  induction buckets generalizing S actions with
  | nil => exact SamePool.refl S
  | cons entry buckets ih =>
    unfold requestBuckets
    split
    · exact ih actions
    · exact (samePool_requestFrom _ _ now).trans (ih _)

theorem peers_requestBuckets (now : ℕ) (buckets : List (PeerId × List BlockHash))
    (actions : List Action) : (requestBuckets now buckets S actions).1.peers = S.peers := by
  induction buckets generalizing S actions with
  | nil => rfl
  | cons entry buckets ih =>
    unfold requestBuckets
    split
    · exact ih actions
    · exact (ih _).trans (peers_requestFrom _ _ now)

end Requests

/-! ### Orphans -/

section Orphans

/-- Eviction touches the orphans, their order and what waits on what. -/
structure OnlyOrphans (S T : DagSync) : Prop where
  dag : T.dag = S.dag
  gate : T.gate = S.gate
  config : T.config = S.config
  peers : T.peers = S.peers
  requested : T.requested = S.requested
  bodies : T.bodies = S.bodies
  accepted : T.accepted = S.accepted

theorem onlyOrphans_evict (order : List BlockHash) : S.OnlyOrphans (evict order S) := by
  induction order generalizing S with
  | nil => exact ⟨rfl, rfl, rfl, rfl, rfl, rfl, rfl⟩
  | cons oldest rest ih =>
    unfold evict
    split
    · exact ⟨rfl, rfl, rfl, rfl, rfl, rfl, rfl⟩
    · split
      · exact ih
      · obtain ⟨h₁, h₂, h₃, h₄, h₅, h₆, h₇⟩ := @ih { S with
          orphans := S.orphans.erase oldest
          waitingOn := unwait oldest _ S.waitingOn }
        exact ⟨h₁, h₂, h₃, h₄, h₅, h₆, h₇⟩

/-- Eviction adds no orphan. -/
theorem lookup_of_lookup_evict (order : List BlockHash) {b : BlockHash} {orphan : Orphan}
    (h : (evict order S).orphans.lookup b = some orphan) : S.orphans.lookup b = some orphan := by
  -- what eviction leaves was there before
  induction order generalizing S with
  | nil => exact h
  | cons oldest rest ih =>
    unfold evict at h
    split at h
    · exact h
    · split at h
      · exact ih h
      · have hrest := ih h
        dsimp only at hrest
        rw [Maps.lookup_erase] at hrest
        split at hrest
        · cases hrest
        · exact hrest

/-- The orphans after one has been stored: it, and some of those there were. -/
theorem lookup_of_lookup_storeOrphan {hash : BlockHash} {header : Header} {sender : PeerId}
    {b : BlockHash} {orphan : Orphan}
    (h : (S.storeOrphan hash header sender).orphans.lookup b = some orphan) :
    b = hash ∧ orphan = ⟨header, sender⟩ ∨ S.orphans.lookup b = some orphan := by
  unfold storeOrphan at h
  obtain hself | ⟨-, hold⟩ := Maps.lookup_insert_eq_some.mp h
  · exact Or.inl hself
  · exact Or.inr (lookup_of_lookup_evict _ hold)

/-- With room in the pool nothing is evicted. -/
theorem evict_of_room (hroom : S.orphans.keys.card < S.config.maxOrphans) :
    evict S.orphanOrder S = S := by
  cases horder : S.orphanOrder with
  | nil =>
    unfold evict
    rw [← horder]
  | cons oldest rest =>
    unfold evict
    rw [if_pos hroom, ← horder]

/-- Who waits on a block after an orphan has been stored. -/
theorem lookup_wait (hash p : BlockHash) (parents : List BlockHash) :
    (S.wait hash parents).lookup p =
      if p ∈ parents ∧ p ∉ S.dag.headers then
        some (insert hash ((S.waitingOn.lookup p).getD ∅))
      else S.waitingOn.lookup p := by
  -- the fold over the missing parents
  have hloop : ∀ (l : List BlockHash) (m : Map BlockHash (Finset BlockHash)),
      (l.foldl (fun waitingOn parent =>
        waitingOn.insert parent (insert hash ((waitingOn.lookup parent).getD ∅))) m).lookup p
      = if p ∈ l then some (insert hash ((m.lookup p).getD ∅)) else m.lookup p := by
    intro l
    induction l with
    | nil => exact fun m => (if_neg List.not_mem_nil).symm
    | cons parent l ih =>
      intro m
      rw [List.foldl_cons, ih, Maps.lookup_insert]
      by_cases hp : p = parent
      · -- written here, and perhaps once more
        subst hp
        rw [if_pos rfl, if_pos List.mem_cons_self, Option.getD_some, Finset.insert_idem]
        exact ite_id _
      · simp [hp]
  unfold wait
  rw [hloop]
  simp only [List.mem_filter, decide_eq_true_eq]

theorem onlyOrphans_storeOrphan (hash : BlockHash) (header : Header) (sender : PeerId) :
    S.OnlyOrphans (S.storeOrphan hash header sender) := by
  obtain ⟨h₁, h₂, h₃, h₄, h₅, h₆, h₇⟩ := onlyOrphans_evict (S := S) S.orphanOrder
  exact ⟨h₁, h₂, h₃, h₄, h₅, h₆, h₇⟩

variable [HeaderHash]

/-- The state after an orphan has been taken out of the pool and tried. -/
def tried (S : DagSync) (child : BlockHash) (orphan : Orphan) : DagSync :=
  { S with
    dag := (S.dag.addBlock orphan.header).1
    orphans := S.orphans.erase child
    orphanOrder := S.orphanOrder.filter (· ≠ child) }

/-- The state after an orphan has joined the DAG and has been announced. -/
def joined (S : DagSync) (child : BlockHash) (orphan : Orphan) : DagSync × List Action :=
  ({ S.tried child orphan with accepted := S.accepted ++ [child] } : DagSync).announce child
    (some orphan.sender)

/-- Every parent of the orphan is in the DAG. -/
def Complete (S : DagSync) (orphan : Orphan) : Prop :=
  ∀ p ∈ orphan.header.parents, p ∈ S.dag.headers

/-- **Rule of the loop over the orphans that waited on a block.** An orphan is passed over
when it is no longer held or still lacks a parent, and is tried otherwise. -/
theorem tryChildren_induct {P : List BlockHash → DagSync → List Action → List BlockHash → Prop}
    (gone : ∀ child children S actions queue, S.orphans.lookup child = none →
      P (child :: children) S actions queue → P children S actions queue)
    (lacks : ∀ child children S actions queue orphan, S.orphans.lookup child = some orphan →
      ¬ S.Complete orphan → P (child :: children) S actions queue → P children S actions queue)
    (joins : ∀ child children S actions queue orphan, S.orphans.lookup child = some orphan →
      S.Complete orphan → (∃ hash, (S.dag.addBlock orphan.header).2 = .ok hash) →
      P (child :: children) S actions queue →
      P children (S.joined child orphan).1 (actions ++ (S.joined child orphan).2)
        (queue ++ [child]))
    (refused : ∀ child children S actions queue orphan, S.orphans.lookup child = some orphan →
      S.Complete orphan → (∃ e, (S.dag.addBlock orphan.header).2 = .error e) →
      P (child :: children) S actions queue → P children (S.tried child orphan) actions queue)
    (children : List BlockHash) (S : DagSync) (actions : List Action) (queue : List BlockHash)
    (h : P children S actions queue) :
    P [] (tryChildren children S actions queue).1 (tryChildren children S actions queue).2.1
      (tryChildren children S actions queue).2.2 := by
  -- one child of `waiting` after the other, as the loop takes them
  induction children generalizing S actions queue with
  | nil => exact h
  | cons child children ih =>
    unfold tryChildren
    cases hl : S.orphans.lookup child with
    | none => exact ih _ _ _ (gone child children S actions queue hl h)
    | some orphan =>
      dsimp only
      -- the source looks at the parents again, then offers the header to the store
      by_cases hall : (orphan.header.parents.all fun p => p ∈ S.dag.headers) = true
      · rw [if_pos hall]
        have hcomplete : S.Complete orphan := fun p hp =>
          of_decide_eq_true (List.all_eq_true.mp hall p hp)
        cases hadd : (S.dag.addBlock orphan.header).2 with
        | ok hash => exact ih _ _ _ (joins child children S actions queue orphan hl hcomplete
            ⟨hash, hadd⟩ h)
        | error e => exact ih _ _ _ (refused child children S actions queue orphan hl hcomplete
            ⟨e, hadd⟩ h)
      · rw [if_neg hall]
        refine ih _ _ _ (lacks child children S actions queue orphan hl (fun hcomplete => ?_) h)
        exact hall (List.all_eq_true.mpr fun p hp => decide_eq_true (hcomplete p hp))

/-- Trying an orphan takes it out of the pool. -/
theorem card_tried {child : BlockHash} {orphan : Orphan}
    (hl : S.orphans.lookup child = some orphan) :
    (S.tried child orphan).orphans.keys.card + 1 = S.orphans.keys.card := by
  have hmem : child ∈ S.orphans.keys := Finmap.mem_keys.mpr (Maps.mem_of_lookup hl)
  change (S.orphans.erase child).keys.card + 1 = _
  rw [Finmap.keys_erase, Finset.card_erase_add_one hmem]

/-- Announcing an orphan that has joined changes what is known of the peers only. -/
theorem onlyPeers_joined (child : BlockHash) (orphan : Orphan) :
    ({ S.tried child orphan with accepted := S.accepted ++ [child] } : DagSync).OnlyPeers
      (S.joined child orphan).1 :=
  onlyPeers_announce child (some orphan.sender)

theorem orphans_joined (child : BlockHash) (orphan : Orphan) :
    (S.joined child orphan).1.orphans = S.orphans.erase child :=
  (onlyPeers_joined child orphan).samePool.orphans

/-- A block is appended to the queue for every orphan that joins. -/
theorem tryChildren_measure (children : List BlockHash) (S : DagSync) (actions : List Action)
    (queue : List BlockHash) :
    (tryChildren children S actions queue).2.2.length
        + (tryChildren children S actions queue).1.orphans.keys.card
      ≤ queue.length + S.orphans.keys.card := by
  refine tryChildren_induct
    (P := fun _ T _ queue' => queue'.length + T.orphans.keys.card
      ≤ queue.length + S.orphans.keys.card) ?_ ?_ ?_ ?_ children S actions queue le_rfl
  · exact fun _ _ _ _ _ _ h => h
  · exact fun _ _ _ _ _ _ _ _ h => h
  · -- a child that joins leaves the pool and enters the queue
    intro child _ T _ queue' orphan hl _ _ h
    have hcard := card_tried hl
    have horphans : (T.joined child orphan).1.orphans = (T.tried child orphan).orphans :=
      orphans_joined child orphan
    rw [horphans, List.length_append, List.length_singleton]
    omega
  · intro child _ T _ queue' orphan hl _ _ h
    have hcard := card_tried hl
    omega

omit [HeaderHash] in
/-- The state when the orphans that waited on `parent` are about to be tried. -/
def released (S : DagSync) (parent : BlockHash) : DagSync :=
  { S with waitingOn := S.waitingOn.erase parent }

/-- **Rule of the queue of blocks that have joined.** The queue is empty in the end: an orphan
is appended to it at most once. -/
theorem resolve_induct {P : List BlockHash → DagSync → List Action → Prop}
    (idle : ∀ parent queue S actions, S.waitingOn.lookup parent = none →
      P (parent :: queue) S actions → P queue S actions)
    (turn : ∀ parent queue S actions children, S.waitingOn.lookup parent = some children →
      P (parent :: queue) S actions →
      P (tryChildren (Maps.sortedKeys children) (S.released parent) actions queue).2.2
        (tryChildren (Maps.sortedKeys children) (S.released parent) actions queue).1
        (tryChildren (Maps.sortedKeys children) (S.released parent) actions queue).2.1)
    (n : ℕ) (queue : List BlockHash) (S : DagSync) (actions : List Action)
    (hn : queue.length + S.orphans.keys.card ≤ n) (h : P queue S actions) :
    P [] (resolve n queue S actions).1 (resolve n queue S actions).2 := by
  -- the fuel is enough: every turn takes from the queue, or moves an orphan into it
  induction n generalizing queue S actions with
  | zero =>
    obtain rfl : queue = [] := List.eq_nil_of_length_eq_zero (by omega)
    exact h
  | succ n ih =>
    cases queue with
    | nil => exact h
    | cons parent queue =>
      rw [List.length_cons] at hn
      unfold resolve
      cases hl : S.waitingOn.lookup parent with
      | none => exact ih _ _ _ (by omega) (idle parent queue S actions hl h)
      | some children =>
        have hmeasure : _ ≤ queue.length + S.orphans.keys.card :=
          tryChildren_measure (Maps.sortedKeys children) (S.released parent) actions queue
        exact ih _ _ _ (by exact hmeasure.trans (by omega))
          (turn parent queue S actions children hl h)

/-- The rule for `resolve_orphans_of`, which allows for as many blocks as there are orphans. -/
theorem resolveOrphansOf_induct {P : List BlockHash → DagSync → List Action → Prop}
    (idle : ∀ parent queue S actions, S.waitingOn.lookup parent = none →
      P (parent :: queue) S actions → P queue S actions)
    (turn : ∀ parent queue S actions children, S.waitingOn.lookup parent = some children →
      P (parent :: queue) S actions →
      P (tryChildren (Maps.sortedKeys children) (S.released parent) actions queue).2.2
        (tryChildren (Maps.sortedKeys children) (S.released parent) actions queue).1
        (tryChildren (Maps.sortedKeys children) (S.released parent) actions queue).2.1)
    (S : DagSync) (hash : BlockHash) (h : P [hash] S []) :
    P [] (S.resolveOrphansOf hash).1 (S.resolveOrphansOf hash).2 :=
  resolve_induct idle turn _ _ _ _ (by rw [List.length_singleton, Nat.add_comm]) h

theorem samePeers_tryChildren {γ : Type} {view : PeerState → γ} (hview : PeerState.Steady view)
    (children : List BlockHash) (actions : List Action) (queue : List BlockHash) :
    S.SamePeers view (tryChildren children S actions queue).1 := by
  refine tryChildren_induct (P := fun _ T _ _ => S.SamePeers view T) ?_ ?_ ?_ ?_ children S actions
    queue (SamePeers.refl S)
  · exact fun _ _ _ _ _ _ h => h
  · exact fun _ _ _ _ _ _ _ _ h => h
  · intro child children T actions queue orphan _ _ _ h
    refine h.trans ?_
    exact samePeers_announce (S := { T.tried child orphan with accepted := _ }) hview child _
  · exact fun _ _ _ _ _ _ _ _ _ h => h

theorem samePeers_resolveOrphansOf {γ : Type} {view : PeerState → γ}
    (hview : PeerState.Steady view) (hash : BlockHash) :
    S.SamePeers view (S.resolveOrphansOf hash).1 :=
  resolveOrphansOf_induct (P := fun _ T _ => S.SamePeers view T) (fun _ _ _ _ _ h => h)
    (fun parent queue T actions children _ h => h.trans
      (samePeers_tryChildren (S := T.released parent) hview (Maps.sortedKeys children) actions
        queue))
    S hash (SamePeers.refl S)

end Orphans

/-! ### Blocks -/

section Blocks

variable [HeaderHash] {γ : Type} {view : PeerState → γ}

/-- The state after a block has joined the DAG, before it is announced. -/
def credited (S : DagSync) (header : Header) (sender : PeerId) : DagSync :=
  ({ S with
      dag := (S.dag.addBlock header).1
      accepted := S.accepted ++ [header.hash] } : DagSync).modifyPeer sender fun state =>
    { state with blocksDelivered := state.blocksDelivered + 1 }.reward 1

/-- The state after a block has joined the DAG and has been announced. -/
def relayed (S : DagSync) (header : Header) (sender : PeerId) : DagSync × List Action :=
  (S.credited header sender).announce header.hash (some sender)

/-- Crediting and announcing a block that has joined change what is known of the peers only. -/
theorem onlyPeers_relayed (header : Header) (sender : PeerId) :
    ({ S with
      dag := (S.dag.addBlock header).1
      accepted := S.accepted ++ [header.hash] } : DagSync).OnlyPeers (S.relayed header sender).1 :=
  (onlyPeers_modifyPeer sender _).trans
    (onlyPeers_announce (S := S.credited header sender) header.hash (some sender))

theorem samePool_relayed (header : Header) (sender : PeerId) :
    ({ S with
      dag := (S.dag.addBlock header).1
      accepted := S.accepted ++ [header.hash] } : DagSync).SamePool (S.relayed header sender).1 :=
  (onlyPeers_relayed header sender).samePool

/-- The parents to ask for when a block is held as an orphan. -/
def missingParents (S : DagSync) (header : Header) : List BlockHash :=
  header.parents.filter fun p => !S.holds p

/-- **What becomes of a validated header**: it joins and orphans may follow it, it is held as
an orphan and its missing parents are requested, or it is refused. -/
theorem admit_cases (S : DagSync) (header : Header) (sender : PeerId) (now : ℕ) :
    (∃ hash, (S.dag.addBlock header).2 = .ok hash ∧
      S.admitBlock header sender now =
        (((S.relayed header sender).1.resolveOrphansOf header.hash).1,
          (S.relayed header sender).2
            ++ ((S.relayed header sender).1.resolveOrphansOf header.hash).2)) ∨
    (∃ block parent, (S.dag.addBlock header).2 = .error (.missingParent block parent) ∧
      S.admitBlock header sender now =
        (({ S with dag := (S.dag.addBlock header).1 } : DagSync).storeOrphan header.hash header
          sender).requestFrom sender
          (({ S with dag := (S.dag.addBlock header).1 } : DagSync).missingParents header) now) ∨
    (∃ e, (S.dag.addBlock header).2 = .error e ∧
      (∀ block parent, e ≠ .missingParent block parent) ∧
      S.admitBlock header sender now = ({ S with dag := (S.dag.addBlock header).1 }, [])) := by
  unfold admitBlock
  dsimp only
  -- the three arms of the match on what `add_block` returns
  cases hadd : (S.dag.addBlock header).2 with
  | ok hash => exact Or.inl ⟨hash, rfl, rfl⟩
  | error e =>
    cases e with
    | missingParent block parent => exact Or.inr (Or.inl ⟨block, parent, rfl, rfl⟩)
    | alreadyPresent block => exact Or.inr (Or.inr ⟨_, rfl, nofun, rfl⟩)
    | noParents block => exact Or.inr (Or.inr ⟨_, rfl, nofun, rfl⟩)
    | mergesetTooLarge block limit => exact Or.inr (Or.inr ⟨_, rfl, nofun, rfl⟩)

/-- The state when the turn of a delivered block comes: its request is settled, and the peer
is known to hold it. -/
def received (S : DagSync) (peer : PeerId) (hash : BlockHash) : DagSync :=
  ({ S with requested := S.requested.erase hash } : DagSync).modifyPeer peer (·.noteKnown hash)

omit [HeaderHash] in
theorem samePool_received (peer : PeerId) (hash : BlockHash) :
    S.SamePool (S.received peer hash) :=
  (⟨rfl, rfl, rfl, rfl, rfl, rfl, rfl, rfl⟩ : S.SamePool
    { S with requested := S.requested.erase hash }).trans (onlyPeers_modifyPeer peer _).samePool

omit [HeaderHash] in
theorem requested_received (peer : PeerId) (hash : BlockHash) :
    (S.received peer hash).requested = S.requested.erase hash :=
  (onlyPeers_modifyPeer (S := { S with requested := S.requested.erase hash }) peer _).requested

omit [HeaderHash] in
theorem samePeers_received (hview : PeerState.Steady view) (peer : PeerId) (hash : BlockHash) :
    S.SamePeers view (S.received peer hash) :=
  samePeers_modifyPeer (S := { S with requested := S.requested.erase hash }) peer
    fun state => hview.noteKnown state hash

/-- The state when a delivered block is admitted: its body is stored. -/
def taken (S : DagSync) (peer : PeerId) (block : BlockPayload) : DagSync :=
  { S.received peer block.hash with
    bodies := S.bodies.insert block.hash block.transactions }

theorem sameSetup_taken (peer : PeerId) (block : BlockPayload) :
    S.SameSetup (S.taken peer block) :=
  ⟨(samePool_received peer block.hash).gate, (samePool_received peer block.hash).config⟩

/-- The state after the gate has refused a block, and what to do. -/
def rebuked (S : DagSync) (peer : PeerId) (hash : BlockHash) : DagSync × List Action :=
  (S.received peer hash).penalise peer .invalidBlock "invalid block"

omit [HeaderHash] in
theorem samePool_rebuked (peer : PeerId) (hash : BlockHash) :
    S.SamePool (S.rebuked peer hash).1 :=
  (samePool_received peer hash).trans (onlyPeers_penalise peer _ _).samePool

/-- Something is to be done about a peer that has run out of credit. -/
def anyDisconnect (actions : List Action) : Bool := actions.any fun a => a matches .disconnect _ _

/-- **Rule of the loop over delivered blocks.** A block is held already, or is refused by the
gate, or is admitted with its body stored. When a refusal bans the peer, the remaining blocks
are dropped. -/
theorem deliver_induct (peer : PeerId) (now : ℕ)
    {P : List BlockPayload → DagSync → List Action → Prop}
    (redundant : ∀ block blocks S actions, (S.received peer block.hash).holds block.hash = true →
      P (block :: blocks) S actions → P blocks (S.received peer block.hash) actions)
    (refused : ∀ block blocks S actions, (S.received peer block.hash).holds block.hash = false →
      (∃ reason, S.gate block.header = .error reason) →
      anyDisconnect (actions ++ (S.rebuked peer block.hash).2) = false →
      P (block :: blocks) S actions →
      P blocks (S.rebuked peer block.hash).1 (actions ++ (S.rebuked peer block.hash).2))
    (banned : ∀ block blocks S actions, (S.received peer block.hash).holds block.hash = false →
      (∃ reason, S.gate block.header = .error reason) →
      anyDisconnect (actions ++ (S.rebuked peer block.hash).2) = true →
      P (block :: blocks) S actions →
      P [] (S.rebuked peer block.hash).1 (actions ++ (S.rebuked peer block.hash).2))
    (admitted : ∀ block blocks S actions, (S.received peer block.hash).holds block.hash = false →
      (∃ u, S.gate block.header = .ok u) → P (block :: blocks) S actions →
      P blocks ((S.taken peer block).admitBlock block.header peer now).1
        (actions ++ ((S.taken peer block).admitBlock block.header peer now).2))
    (blocks : List BlockPayload) (S : DagSync) (actions : List Action)
    (h : P blocks S actions) :
    P [] (deliver peer now blocks S actions).1 (deliver peer now blocks S actions).2 := by
  induction blocks generalizing S actions with
  | nil => exact h
  | cons block blocks ih =>
    have hsame : S.SamePool (S.received peer block.hash) := samePool_received peer block.hash
    -- noting the block changes neither the gate nor the pool
    have hgate : (S.received peer block.hash).gate block.header = S.gate block.header := by
      rw [hsame.gate]
    have hreceived : ({ S with requested := S.requested.erase block.hash } : DagSync).modifyPeer
        peer (·.noteKnown block.hash) = S.received peer block.hash := rfl
    unfold deliver
    dsimp only
    rw [hreceived, hgate, hsame.bodies]
    cases hholds : (S.received peer block.hash).holds block.hash with
    | true =>
      rw [if_pos rfl]
      exact ih _ _ (redundant block blocks S actions hholds h)
    | false =>
      rw [if_neg Bool.false_ne_true]
      cases hchecked : S.gate block.header with
      | error reason =>
        dsimp only
        split
        · next hban => exact banned block blocks S actions hholds ⟨reason, hchecked⟩ hban h
        · next hban =>
          rw [Bool.not_eq_true] at hban
          exact ih _ _ (refused block blocks S actions hholds ⟨reason, hchecked⟩ hban h)
      | ok u => exact ih _ _ (admitted block blocks S actions hholds ⟨u, hchecked⟩ h)

omit [HeaderHash] in
theorem anyDisconnect_append (actions actions' : List Action) :
    anyDisconnect (actions ++ actions') = (anyDisconnect actions || anyDisconnect actions') :=
  List.any_append

/-- The loop over delivered blocks comes to a state with these blocks left. -/
inductive Reaches (peer : PeerId) (now : ℕ) (S : DagSync) (blocks : List BlockPayload) :
    DagSync → List BlockPayload → Prop where
  | start : Reaches peer now S blocks S blocks
  | redundant {T block rest} : Reaches peer now S blocks T (block :: rest) →
    (T.received peer block.hash).holds block.hash = true →
    Reaches peer now S blocks (T.received peer block.hash) rest
  | refused {T block rest} : Reaches peer now S blocks T (block :: rest) →
    (T.received peer block.hash).holds block.hash = false →
    (∃ reason, T.gate block.header = .error reason) →
    anyDisconnect (T.rebuked peer block.hash).2 = false →
    Reaches peer now S blocks (T.rebuked peer block.hash).1 rest
  | admitted {T block rest} : Reaches peer now S blocks T (block :: rest) →
    (T.received peer block.hash).holds block.hash = false →
    (∃ u, T.gate block.header = .ok u) →
    Reaches peer now S blocks ((T.taken peer block).admitBlock block.header peer now).1 rest

/-- A delivered block is admitted when its turn comes: it is not held then, and the gate lets
it pass. -/
def Takes (S : DagSync) (peer : PeerId) (blocks : List BlockPayload) (now : ℕ)
    (T : DagSync) (block : BlockPayload) : Prop :=
  ∃ rest, Reaches peer now S blocks T (block :: rest) ∧
    (T.received peer block.hash).holds block.hash = false ∧ ∃ u, T.gate block.header = .ok u

/-- **Rule of `on_blocks`**: what redundant, refused and admitted blocks keep when their turn comes,
delivery keeps. -/
theorem onBlocks_induct_turn {peer : PeerId} {blocks : List BlockPayload} {now : ℕ} {S : DagSync}
    {P : DagSync → Prop}
    (redundant : ∀ block rest T, Reaches peer now S blocks T (block :: rest) →
      (T.received peer block.hash).holds block.hash = true → P T → P (T.received peer block.hash))
    (refused : ∀ block rest T, Reaches peer now S blocks T (block :: rest) →
      (T.received peer block.hash).holds block.hash = false →
      (∃ reason, T.gate block.header = .error reason) → P T → P (T.rebuked peer block.hash).1)
    (admitted : ∀ block T, S.Takes peer blocks now T block → P T →
      P ((T.taken peer block).admitBlock block.header peer now).1)
    (h : P S) : P (S.onBlocks peer blocks now).1 := by
  -- the loop, with what remains of the frame as the point it has reached
  refine (deliver_induct _ _ (P := fun rest T _ =>
    P T ∧ (rest = [] ∨ Reaches peer now S blocks T rest)) ?_ ?_ ?_ ?_ blocks S []
    ⟨h, Or.inr .start⟩).1
  · rintro block rest T actions hholds ⟨hP, hnil | hreach⟩
    · cases hnil
    · exact ⟨redundant block rest T hreach hholds hP, Or.inr (hreach.redundant hholds)⟩
  · rintro block rest T actions hholds hgate hban ⟨hP, hnil | hreach⟩
    · cases hnil
    · rw [anyDisconnect_append, Bool.or_eq_false_iff] at hban
      exact ⟨refused block rest T hreach hholds hgate hP,
        Or.inr (hreach.refused hholds hgate hban.2)⟩
  · -- a ban ends the loop here
    rintro block rest T actions hholds hgate - ⟨hP, hnil | hreach⟩
    · cases hnil
    · exact ⟨refused block rest T hreach hholds hgate hP, Or.inl rfl⟩
  · rintro block rest T actions hholds hgate ⟨hP, hnil | hreach⟩
    · cases hnil
    · exact ⟨admitted block T ⟨rest, hreach, hholds, hgate⟩ hP,
        Or.inr (hreach.admitted hholds hgate)⟩

/-- The rule for what redundant and refused blocks keep in any state. -/
theorem onBlocks_induct {peer : PeerId} {blocks : List BlockPayload} {now : ℕ} {S : DagSync}
    {P : DagSync → Prop}
    (received : ∀ block T, P T → P (T.received peer block))
    (rebuked : ∀ block T, P T → P (T.rebuked peer block).1)
    (admitted : ∀ block T, S.Takes peer blocks now T block → P T →
      P ((T.taken peer block).admitBlock block.header peer now).1)
    (h : P S) : P (S.onBlocks peer blocks now).1 :=
  onBlocks_induct_turn (fun block _ T _ _ hT => received block.hash T hT)
    (fun block _ T _ _ _ hT => rebuked block.hash T hT) admitted h

theorem Reaches.subset {peer : PeerId} {now : ℕ} {blocks rest : List BlockPayload}
    (h : Reaches peer now S blocks T rest) : rest ⊆ blocks := by
  induction h with
  | start => exact List.Subset.refl _
  | redundant _ _ ih => exact fun b hb => ih (List.mem_cons_of_mem _ hb)
  | refused _ _ _ _ ih => exact fun b hb => ih (List.mem_cons_of_mem _ hb)
  | admitted _ _ _ ih => exact fun b hb => ih (List.mem_cons_of_mem _ hb)

/-- A block that is admitted was delivered, and is neither in the DAG nor an orphan. -/
theorem Takes.facts {peer : PeerId} {now : ℕ} {blocks : List BlockPayload} {block : BlockPayload}
    (h : S.Takes peer blocks now T block) :
    block ∈ blocks ∧ block.hash ∉ T.dag.headers ∧ block.hash ∉ T.orphans := by
  obtain ⟨rest, hreach, hholds, -⟩ := h
  rw [(samePool_received peer block.hash).holds_eq] at hholds
  exact ⟨hreach.subset List.mem_cons_self, holds_eq_false_iff.mp hholds⟩

/-- The turn of a single block comes in the state it is delivered in. -/
theorem Reaches.single {peer : PeerId} {now : ℕ} {block payload : BlockPayload}
    {rest : List BlockPayload} (h : Reaches peer now S [payload] T (block :: rest)) :
    T = S ∧ block = payload := by
  have hfirst : ∀ {U left}, Reaches peer now S [payload] U left →
      left = [] ∨ U = S ∧ left = [payload] := by
    intro U left hreach
    induction hreach with
    | start => exact Or.inr ⟨rfl, rfl⟩
    | redundant _ _ ih => exact Or.inl (List.cons.inj (ih.resolve_left (List.cons_ne_nil _ _)).2).2
    | refused _ _ _ _ ih => exact Or.inl (List.cons.inj (ih.resolve_left (List.cons_ne_nil _ _)).2).2
    | admitted _ _ _ ih => exact Or.inl (List.cons.inj (ih.resolve_left (List.cons_ne_nil _ _)).2).2
  obtain ⟨hsame, hblocks⟩ := (hfirst h).resolve_left (List.cons_ne_nil _ _)
  exact ⟨hsame, (List.cons.inj hblocks).1⟩

/-- A single block is admitted in the state it is delivered in. -/
theorem Takes.single {peer : PeerId} {now : ℕ} {block payload : BlockPayload}
    (h : S.Takes peer [payload] now T block) : T = S ∧ block = payload := by
  obtain ⟨rest, hreach, -⟩ := h
  exact hreach.single

theorem samePeers_relayed (hview : PeerState.Steady view) (header : Header) (sender : PeerId) :
    S.SamePeers view (S.relayed header sender).1 := by
  have hcredited : S.SamePeers view (S.credited header sender) :=
    samePeers_modifyPeer (S := { S with
      dag := (S.dag.addBlock header).1
      accepted := S.accepted ++ [header.hash] }) sender fun state => hview.credit state _
  exact hcredited.trans (samePeers_announce hview header.hash (some sender))

theorem samePeers_admitBlock (hview : PeerState.Steady view) (header : Header) (sender : PeerId)
    (now : ℕ) : S.SamePeers view (S.admitBlock header sender now).1 := by
  obtain ⟨hash, -, he⟩ | ⟨block, parent, -, he⟩ | ⟨e, -, -, he⟩ := S.admit_cases header sender now
  · rw [he]
    exact (samePeers_relayed hview header sender).trans (samePeers_resolveOrphansOf hview _)
  · rw [he]
    refine SamePeers.of_eq ?_
    rw [peers_requestFrom]
    exact (onlyOrphans_storeOrphan _ _ _).peers
  · rw [he]
    exact SamePeers.refl S

theorem samePeers_onBlocks (hview : PeerState.Steady view) (peer : PeerId)
    (blocks : List BlockPayload) (now : ℕ) : S.SamePeers view (S.onBlocks peer blocks now).1 :=
  onBlocks_induct (P := S.SamePeers view)
    (fun hash _ h => h.trans (samePeers_received hview peer hash))
    (fun hash _ h => (h.trans (samePeers_received hview peer hash)).trans
      (samePeers_penalise hview peer _ _))
    (fun block T _ h => (h.trans (samePeers_received hview peer block.hash)).trans
      (samePeers_admitBlock (S := T.taken peer block) hview block.header peer now))
    (SamePeers.refl S)

/-- The state after a locally mined block has joined the DAG and has been announced. -/
def mined (S : DagSync) (block : BlockPayload) : DagSync × List Action :=
  ({ S with
      bodies := S.bodies.insert block.hash block.transactions
      dag := (S.dag.addBlock block.header).1
      accepted := S.accepted ++ [block.hash] } : DagSync).announce block.hash none

theorem onlyPeers_mined (block : BlockPayload) :
    ({ S with
      bodies := S.bodies.insert block.hash block.transactions
      dag := (S.dag.addBlock block.header).1
      accepted := S.accepted ++ [block.hash] } : DagSync).OnlyPeers (S.mined block).1 :=
  onlyPeers_announce block.hash none

theorem samePool_mined (block : BlockPayload) :
    ({ S with
      bodies := S.bodies.insert block.hash block.transactions
      dag := (S.dag.addBlock block.header).1
      accepted := S.accepted ++ [block.hash] } : DagSync).SamePool (S.mined block).1 :=
  (onlyPeers_mined block).samePool

/-- What becomes of a locally mined block. -/
theorem onLocalBlock_cases (S : DagSync) (block : BlockPayload) :
    (∃ hash, (S.dag.addBlock block.header).2 = .ok hash ∧
      S.onLocalBlock block = (((S.mined block).1.resolveOrphansOf block.hash).1,
        (S.mined block).2 ++ ((S.mined block).1.resolveOrphansOf block.hash).2)) ∨
    (∃ e, (S.dag.addBlock block.header).2 = .error e ∧
      S.onLocalBlock block = ({ S with
        bodies := S.bodies.insert block.hash block.transactions
        dag := (S.dag.addBlock block.header).1 }, [])) := by
  unfold onLocalBlock
  dsimp only
  cases (S.dag.addBlock block.header).2 with
  | ok hash => exact Or.inl ⟨hash, rfl, rfl⟩
  | error e => exact Or.inr ⟨e, rfl, rfl⟩

theorem samePeers_onLocalBlock (hview : PeerState.Steady view) (block : BlockPayload) :
    S.SamePeers view (S.onLocalBlock block).1 := by
  obtain ⟨hash, -, he⟩ | ⟨e, -, he⟩ := S.onLocalBlock_cases block
  · rw [he]
    have hmined : S.SamePeers view (S.mined block).1 :=
      samePeers_announce (S := { S with
        bodies := S.bodies.insert block.hash block.transactions
        dag := (S.dag.addBlock block.header).1
        accepted := S.accepted ++ [block.hash] }) hview block.hash none
    exact hmined.trans (samePeers_resolveOrphansOf hview _)
  · rw [he]
    exact SamePeers.refl S

theorem sameHandshakes_onLocalBlock (block : BlockPayload) :
    S.SameHandshakes (S.onLocalBlock block).1 :=
  samePeers_onLocalBlock PeerState.steady_handshake block

theorem samePeers_onGetBlocks (hview : PeerState.Steady view) (peer : PeerId)
    (hashes : List BlockHash) : S.SamePeers view (S.onGetBlocks peer hashes).1 := by
  unfold onGetBlocks
  dsimp only
  split
  · exact SamePeers.refl S
  · refine samePeers_modifyPeer peer fun state => ?_
    rw [← List.foldl_map, hview.foldl_noteKnown]

theorem samePool_onGetBlocks (peer : PeerId) (hashes : List BlockHash) :
    S.SamePool (S.onGetBlocks peer hashes).1 := by
  unfold onGetBlocks
  dsimp only
  split
  · exact SamePool.refl S
  · exact (onlyPeers_modifyPeer peer _).samePool

omit [HeaderHash] in
theorem samePeers_onInvBlocks (hview : PeerState.Steady view) (peer : PeerId)
    (hashes : List BlockHash) (now : ℕ) : S.SamePeers view (S.onInvBlocks peer hashes now).1 := by
  unfold onInvBlocks
  refine (samePeers_modifyPeer peer fun state => ?_).trans
    (SamePeers.of_eq (peers_requestFrom _ _ _))
  exact hview.foldl_noteKnown hashes state

omit [HeaderHash] in
theorem samePool_onInvBlocks (peer : PeerId) (hashes : List BlockHash) (now : ℕ) :
    S.SamePool (S.onInvBlocks peer hashes now).1 :=
  (onlyPeers_modifyPeer peer _).samePool.trans (samePool_requestFrom _ _ _)

omit [HeaderHash] in
theorem samePool_onTick (now : ℕ) : S.SamePool (S.onTick now).1 := by
  unfold onTick
  dsimp only
  split
  · exact ⟨rfl, rfl, rfl, rfl, rfl, rfl, rfl, rfl⟩
  · obtain ⟨h₁, h₂, h₃, h₄, h₅, h₆, h₇, h₈⟩ := samePool_requestBuckets (S := { S with
      requested := (S.stale now).foldl (fun requested hash => requested.erase hash) S.requested
      retryCursor := (S.retryCursor + 1) % 2 ^ 64 }) now _ []
    exact ⟨h₁, h₂, h₃, h₄, h₅, h₆, h₇, h₈⟩

omit [HeaderHash] in
theorem peers_onTick (now : ℕ) : (S.onTick now).1.peers = S.peers := by
  unfold onTick
  dsimp only
  split
  · rfl
  · exact peers_requestBuckets _ _ _

omit [HeaderHash] in
theorem samePool_onVersion (peer : PeerId) (version : UInt32) (genesis : BlockHash)
    (tips : List BlockHash) (now : ℕ) : S.SamePool (S.onVersion peer version genesis tips now).1 := by
  unfold onVersion
  split
  · exact (onlyPeers_penalise peer _ _).samePool
  · split
    · exact (onlyPeers_penalise peer _ _).samePool
    · split
      · exact SamePool.refl S
      · exact (onlyPeers_modifyPeer peer _).samePool.trans (samePool_requestFrom _ _ _)

/-! ### What never changes -/

theorem sameSetup_joined (child : BlockHash) (orphan : Orphan) :
    S.SameSetup (S.joined child orphan).1 := by
  have h := (onlyPeers_joined (S := S) child orphan).samePool
  exact ⟨h.gate, h.config⟩

theorem sameSetup_tryChildren (children : List BlockHash) (actions : List Action)
    (queue : List BlockHash) : S.SameSetup (tryChildren children S actions queue).1 :=
  tryChildren_induct (P := fun _ T _ _ => S.SameSetup T) (fun _ _ _ _ _ _ h => h)
    (fun _ _ _ _ _ _ _ _ h => h)
    (fun child _ _ _ _ orphan _ _ _ h => h.trans (sameSetup_joined child orphan))
    (fun _ _ _ _ _ _ _ _ _ h => ⟨h.gate, h.config⟩) children S actions queue ⟨rfl, rfl⟩

theorem sameSetup_resolveOrphansOf (hash : BlockHash) :
    S.SameSetup (S.resolveOrphansOf hash).1 :=
  resolveOrphansOf_induct (P := fun _ T _ => S.SameSetup T) (fun _ _ _ _ _ h => h)
    (fun parent queue T actions children _ h =>
      SameSetup.trans (T := T.released parent) ⟨h.gate, h.config⟩
        (sameSetup_tryChildren (Maps.sortedKeys children) actions queue))
    S hash ⟨rfl, rfl⟩

theorem sameSetup_relayed (header : Header) (sender : PeerId) :
    S.SameSetup (S.relayed header sender).1 := by
  have h := samePool_relayed (S := S) header sender
  exact ⟨h.gate, h.config⟩

theorem sameSetup_admitBlock (header : Header) (sender : PeerId) (now : ℕ) :
    S.SameSetup (S.admitBlock header sender now).1 := by
  obtain ⟨hash, -, he⟩ | ⟨block, parent, -, he⟩ | ⟨e, -, -, he⟩ := S.admit_cases header sender now
  · rw [he]
    exact (sameSetup_relayed header sender).trans (sameSetup_resolveOrphansOf _)
  · rw [he]
    have h := onlyOrphans_storeOrphan (S := { S with dag := (S.dag.addBlock header).1 })
      header.hash header sender
    exact SameSetup.trans ⟨h.gate, h.config⟩ (samePool_requestFrom _ _ now).sameSetup
  · rw [he]
    exact ⟨rfl, rfl⟩

theorem sameSetup_onBlocks (peer : PeerId) (blocks : List BlockPayload) (now : ℕ) :
    S.SameSetup (S.onBlocks peer blocks now).1 :=
  onBlocks_induct (P := S.SameSetup)
    (fun hash _ h => h.trans (samePool_received peer hash).sameSetup)
    (fun hash _ h => h.trans (samePool_rebuked peer hash).sameSetup)
    (fun block T _ h => (h.trans (sameSetup_taken peer block)).trans
      (sameSetup_admitBlock (S := T.taken peer block) block.header peer now))
    ⟨rfl, rfl⟩

theorem sameSetup_onLocalBlock (block : BlockPayload) : S.SameSetup (S.onLocalBlock block).1 := by
  obtain ⟨hash, -, he⟩ | ⟨e, -, he⟩ := S.onLocalBlock_cases block
  · rw [he]
    have hmined := samePool_mined (S := S) block
    exact SameSetup.trans ⟨hmined.gate, hmined.config⟩ (sameSetup_resolveOrphansOf _)
  · rw [he]
    exact ⟨rfl, rfl⟩

/-! ### What the DAG is offered -/

theorem grown_joined (child : BlockHash) (orphan : Orphan) : S.Grown (S.joined child orphan).1 :=
  Grown.of_addBlock (onlyPeers_joined child orphan).samePool.dag

theorem grown_tryChildren (children : List BlockHash) (actions : List Action)
    (queue : List BlockHash) : S.Grown (tryChildren children S actions queue).1 :=
  tryChildren_induct (P := fun _ T _ _ => S.Grown T) (fun _ _ _ _ _ _ h => h)
    (fun _ _ _ _ _ _ _ _ h => h)
    (fun child _ _ _ _ orphan _ _ _ h => h.trans (grown_joined child orphan))
    (fun _ _ _ _ _ _ _ _ _ h => h.trans (Grown.of_addBlock rfl)) children S actions queue
    (Grown.of_eq rfl)

theorem grown_resolveOrphansOf (hash : BlockHash) : S.Grown (S.resolveOrphansOf hash).1 :=
  resolveOrphansOf_induct (P := fun _ T _ => S.Grown T) (fun _ _ _ _ _ h => h)
    (fun parent queue T actions children _ h =>
      Grown.trans (T := T.released parent) (h.trans (Grown.of_eq rfl))
        (grown_tryChildren (Maps.sortedKeys children) actions queue))
    S hash (Grown.of_eq rfl)

theorem dag_relayed (header : Header) (sender : PeerId) :
    (S.relayed header sender).1.dag = (S.dag.addBlock header).1 :=
  (samePool_relayed header sender).dag

theorem grown_admitBlock (header : Header) (sender : PeerId) (now : ℕ) :
    S.Grown (S.admitBlock header sender now).1 := by
  obtain ⟨hash, -, he⟩ | ⟨block, parent, -, he⟩ | ⟨e, -, -, he⟩ := S.admit_cases header sender now
  · rw [he]
    exact (Grown.of_addBlock (dag_relayed header sender)).trans (grown_resolveOrphansOf header.hash)
  · rw [he]
    exact Grown.of_addBlock ((samePool_requestFrom _ _ now).dag.trans
      (onlyOrphans_storeOrphan header.hash header sender).dag)
  · rw [he]
    exact Grown.of_addBlock rfl

theorem grown_onBlocks (peer : PeerId) (blocks : List BlockPayload) (now : ℕ) :
    S.Grown (S.onBlocks peer blocks now).1 :=
  onBlocks_induct (P := S.Grown)
    (fun hash _ h => h.trans (Grown.of_eq (samePool_received peer hash).dag))
    (fun hash _ h => h.trans (Grown.of_eq (samePool_rebuked peer hash).dag))
    (fun block T _ h => (h.trans (Grown.of_eq (T := T.taken peer block)
      (samePool_received peer block.hash).dag)).trans (grown_admitBlock block.header peer now))
    (Grown.of_eq rfl)

theorem grown_onLocalBlock (block : BlockPayload) : S.Grown (S.onLocalBlock block).1 := by
  obtain ⟨hash, -, he⟩ | ⟨e, -, he⟩ := S.onLocalBlock_cases block
  · rw [he]
    exact (Grown.of_addBlock (samePool_mined block).dag).trans (grown_resolveOrphansOf block.hash)
  · rw [he]
    exact Grown.of_addBlock rfl

/-- **A message other than blocks leaves blocks, orphans and bodies as they are.** -/
theorem samePool_onMessage (peer : PeerId) (message : Message) (now : ℕ)
    (hblocks : ∀ blocks, message ≠ .blocks blocks) :
    S.SamePool (S.onMessage peer message now).1 := by
  unfold onMessage
  split
  · exact SamePool.refl S
  · -- a peer that is not ready is not listened to
    split
    · exact SamePool.refl S
    · cases message with
      | version version genesis tips => exact samePool_onVersion peer version genesis tips now
      | verack => exact (onlyPeers_modifyPeer peer _).samePool
      | tips hashes => exact samePool_requestFrom peer _ now
      | invBlocks hashes => exact samePool_onInvBlocks peer hashes now
      | getBlocks hashes => exact samePool_onGetBlocks peer hashes
      | blocks blocks => exact absurd rfl (hblocks blocks)
      | ping _ => exact SamePool.refl S
      | pong _ => exact SamePool.refl S
      | getTips => exact SamePool.refl S
      | invTxs _ => exact SamePool.refl S
      | getTxs _ => exact SamePool.refl S

/-- Blocks from a ready peer are delivered. -/
theorem onMessage_blocks {peer : PeerId} (blocks : List BlockPayload) (now : ℕ)
    (hready : S.isReady peer = true) :
    S.onMessage peer (.blocks blocks) now = S.onBlocks peer blocks now := by
  unfold onMessage
  rw [if_neg (not_not.mpr (mem_peers_of_isReady hready)), hready]
  rfl

/-- **The handshake comes first**: nothing but the handshake of a peer that is not ready has
an effect. -/
theorem onMessage_of_not_ready {peer : PeerId} {message : Message} (now : ℕ)
    (hready : S.isReady peer = false) (hmessage : message.isHandshake = false) :
    (S.onMessage peer message now).1 = S := by
  unfold onMessage
  rw [hready, hmessage]
  split
  · rfl
  · rfl

/-- A batch from a ready peer is delivered, one from another peer is dropped. -/
theorem onMessage_cases (S : DagSync) (peer : PeerId) (message : Message) (now : ℕ) :
    (∃ blocks, message = .blocks blocks ∧ S.isReady peer = true ∧
      (S.onMessage peer message now).1 = (S.onBlocks peer blocks now).1) ∨
    (∃ blocks, message = .blocks blocks ∧ S.isReady peer = false ∧
      (S.onMessage peer message now).1 = S) ∨
    ∀ blocks, message ≠ .blocks blocks := by
  by_cases hblocks : ∃ blocks, message = .blocks blocks
  · obtain ⟨blocks, rfl⟩ := hblocks
    cases hready : S.isReady peer with
    | true => exact Or.inl ⟨blocks, rfl, rfl, congrArg Prod.fst (onMessage_blocks blocks now hready)⟩
    | false => exact Or.inr (Or.inl ⟨blocks, rfl, rfl, onMessage_of_not_ready now hready rfl⟩)
  · exact Or.inr (Or.inr fun blocks he => hblocks ⟨blocks, he⟩)

/-- **Rule of a call**: it delivers a batch from a ready peer, adds a block mined here, or leaves
blocks, orphans and bodies as they are. -/
theorem step_cases (S : DagSync) (call : SyncCall) :
    (∃ peer blocks now, call = .message peer (.blocks blocks) now ∧ S.isReady peer = true ∧
      S.step call = (S.onBlocks peer blocks now).1) ∨
    (∃ block, call = .localBlock block) ∨
    (S.SamePool (S.step call) ∧ ∀ peer blocks now, call = .message peer (.blocks blocks) now →
      S.isReady peer = false) := by
  cases call with
  | connect peer =>
    refine Or.inr (Or.inr ⟨⟨rfl, rfl, rfl, rfl, rfl, rfl, rfl, rfl⟩, fun _ _ _ he => ?_⟩)
    cases he
  | disconnect peer =>
    refine Or.inr (Or.inr ⟨⟨rfl, rfl, rfl, rfl, rfl, rfl, rfl, rfl⟩, fun _ _ _ he => ?_⟩)
    cases he
  | tick now =>
    refine Or.inr (Or.inr ⟨samePool_onTick now, fun _ _ _ he => ?_⟩)
    cases he
  | localBlock block => exact Or.inr (Or.inl ⟨block, rfl⟩)
  | message peer message now =>
    -- only a frame of blocks from a ready peer and a block of our own touch the pool
    obtain ⟨blocks, rfl, hready, hstep⟩ | ⟨blocks, rfl, hready, hstep⟩ | hother :=
      S.onMessage_cases peer message now
    · exact Or.inl ⟨peer, blocks, now, rfl, hready, hstep⟩
    · have hstep : S.step (.message peer (.blocks blocks) now) = S := hstep
      refine Or.inr (Or.inr ⟨hstep.symm ▸ SamePool.refl S, fun _ _ _ he => ?_⟩)
      cases he
      exact hready
    · refine Or.inr (Or.inr ⟨samePool_onMessage peer message now hother, fun _ blocks _ he => ?_⟩)
      cases he
      exact absurd rfl (hother blocks)

/-- **Whatever happens, the DAG is only offered headers.** -/
theorem grown_step (call : SyncCall) : S.Grown (S.step call) := by
  obtain ⟨peer, blocks, now, -, -, hstep⟩ | ⟨block, rfl⟩ | ⟨hsame, -⟩ := S.step_cases call
  · rw [hstep]
    exact grown_onBlocks peer blocks now
  · exact grown_onLocalBlock block
  · exact Grown.of_eq hsame.dag

theorem sameSetup_step (call : SyncCall) : S.SameSetup (S.step call) := by
  obtain ⟨peer, blocks, now, -, -, hstep⟩ | ⟨block, rfl⟩ | ⟨hsame, -⟩ := S.step_cases call
  · rw [hstep]
    exact sameSetup_onBlocks peer blocks now
  · exact sameSetup_onLocalBlock block
  · exact hsame.sameSetup

end Blocks

end Chainname.DagSync
