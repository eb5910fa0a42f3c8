import Chainname.Library.Runs
import Chainname.Net.Runtime

/-!
# A banned connection

A peer whose score has run out is banned: the state machine returns `Disconnect`, and the
runtime drops the peer from the registry when it dispatches it. The connection is still read,
and the state machine still knows the peer.

`Harmless` says which messages leave blocks, orphans, bodies, requests and the score of the peer
as they are, and `ban_without_effect` what this means for a run: the frames of banned
connections have no effect when each of them is harmless, and for batches of at most one block
only then.
-/

namespace Chainname

namespace DagSync

/-- Blocks, orphans, bodies, requests and the score of `peer` are as they were. Of the DAG the
memo table does not count. -/
structure Untouched (peer : PeerId) (S T : DagSync) : Prop where
  dag : T.dag = { S.dag with reachability := T.dag.reachability }
  orphans : T.orphans = S.orphans
  orphanOrder : T.orphanOrder = S.orphanOrder
  waitingOn : T.waitingOn = S.waitingOn
  bodies : T.bodies = S.bodies
  requested : T.requested = S.requested
  score : (T.peers.lookup peer).map PeerState.score = (S.peers.lookup peer).map PeerState.score

/-- The score of a connected peer is the least there is. -/
def AtFloor (S : DagSync) (peer : PeerId) : Prop :=
  ∀ state, S.peers.lookup peer = some state → state.score = -2 ^ 31

/-- There is nothing to request: each block is held, or has been requested. -/
def AllKnown (S : DagSync) (hashes : List BlockHash) : Prop :=
  ∀ hash ∈ hashes, S.holds hash = true ∨ hash ∈ S.requested

/-- A delivered block of no consequence: it has not been requested, and it is held; or the gate
refuses it and the score cannot fall; or its body is stored and the DAG refuses it. -/
def Idle [HeaderHash] (S : DagSync) (peer : PeerId) (block : BlockPayload) : Prop :=
  block.hash ∉ S.requested ∧
    (S.holds block.hash = true ∨
      (∃ reason, S.gate block.header = .error reason) ∧ S.AtFloor peer ∨
      (∃ u, S.gate block.header = .ok u) ∧
        S.bodies.lookup block.hash = some block.transactions ∧
        ∃ e, (S.dag.addBlock block.header).2 = .error e ∧
          ∀ hash parent, e ≠ .missingParent hash parent)

/-- A message of no consequence. -/
def Harmless [HeaderHash] (S : DagSync) (peer : PeerId) : Message → Prop
  | .version version genesis tips =>
    if version ≠ protocolVersion ∨ genesis ≠ S.config.genesis then S.AtFloor peer
    else peer ∈ S.peers → S.AllKnown tips
  | .tips hashes | .invBlocks hashes => S.isReady peer = true → S.AllKnown hashes
  | .blocks blocks => S.isReady peer = true → ∀ block ∈ blocks, S.Idle peer block
  | _ => True

variable {S T U : DagSync} {peer : PeerId}

/-! ### Operations that touch nothing -/

section Untouched

theorem Untouched.refl (peer : PeerId) (S : DagSync) : S.Untouched peer S :=
  ⟨rfl, rfl, rfl, rfl, rfl, rfl, rfl⟩

theorem Untouched.trans (h : Untouched peer S T) (h' : Untouched peer T U) : Untouched peer S U where
  dag := by
    rw [h'.dag, h.dag]
  orphans := h'.orphans.trans h.orphans
  orphanOrder := h'.orphanOrder.trans h.orphanOrder
  waitingOn := h'.waitingOn.trans h.waitingOn
  bodies := h'.bodies.trans h.bodies
  requested := h'.requested.trans h.requested
  score := h'.score.trans h.score

theorem Untouched.symm (h : Untouched peer S T) : Untouched peer T S where
  dag := by
    rw [h.dag]
  orphans := h.orphans.symm
  orphanOrder := h.orphanOrder.symm
  waitingOn := h.waitingOn.symm
  bodies := h.bodies.symm
  requested := h.requested.symm
  score := h.score.symm

/-- Where nothing has been touched so far, what follows decides. -/
theorem Untouched.congr_left (h : Untouched peer S T) :
    Untouched peer S U ↔ Untouched peer T U :=
  ⟨h.symm.trans, h.trans⟩

/-- Where the pool is the same, requests and the score are left to look at. -/
theorem SamePool.untouched_iff (h : S.SamePool T) :
    Untouched peer S T ↔ T.requested = S.requested ∧
      (T.peers.lookup peer).map PeerState.score = (S.peers.lookup peer).map PeerState.score := by
  refine ⟨fun hT => ⟨hT.requested, hT.score⟩, fun hT => ?_⟩
  refine ⟨?_, h.orphans, h.orphanOrder, h.waitingOn, h.bodies, hT.1, hT.2⟩
  rw [h.dag]

theorem Untouched.holds (h : Untouched peer S T) (hash : BlockHash) : T.holds hash = S.holds hash := by
  unfold DagSync.holds
  rw [h.orphans, h.dag]

theorem Untouched.allKnown_iff (h : Untouched peer S T) (hashes : List BlockHash) :
    T.AllKnown hashes ↔ S.AllKnown hashes := by
  unfold AllKnown
  simp only [h.holds, h.requested]

theorem Untouched.atFloor (h : Untouched peer S T) (hfloor : S.AtFloor peer) : T.AtFloor peer := by
  intro state hl
  have hscore := h.score
  rw [hl, Option.map_some] at hscore
  obtain ⟨state', hl', hstate⟩ := Option.map_eq_some_iff.mp hscore.symm
  rw [← hstate]
  exact hfloor state' hl'

theorem score_modifyPeer (q : PeerId) {f : PeerState → PeerState}
    (hf : ∀ state, (f state).score = state.score) :
    ((S.modifyPeer q f).peers.lookup peer).map PeerState.score
      = (S.peers.lookup peer).map PeerState.score :=
  samePeers_modifyPeer q hf peer

theorem untouched_modifyPeer (q : PeerId) {f : PeerState → PeerState}
    (hf : ∀ state, (f state).score = state.score) : Untouched peer S (S.modifyPeer q f) :=
  (onlyPeers_modifyPeer q f).samePool.untouched_iff.mpr
    ⟨(onlyPeers_modifyPeer q f).requested, score_modifyPeer q hf⟩

theorem score_foldl_noteKnown (hashes : List BlockHash) (state : PeerState) :
    (hashes.foldl PeerState.noteKnown state).score = state.score := by
  induction hashes generalizing state with
  | nil => rfl
  | cons hash hashes ih => exact ih _

/-- **A penalty shows**, unless the score is the least there is. -/
theorem untouched_penalise_iff (what : Misbehaviour) (reason : String) :
    Untouched peer S (S.penalise peer what reason).1 ↔ S.AtFloor peer := by
  refine (onlyPeers_penalise peer what reason).samePool.untouched_iff.trans ?_
  rw [and_iff_right (onlyPeers_penalise peer what reason).requested]
  have hpenalty : 0 < what.penalty := by cases what <;> decide
  unfold AtFloor DagSync.penalise
  -- a peer at the floor of its score loses nothing by a penalty
  cases hl : S.peers.lookup peer with
  | none => simp [hl]
  | some state =>
    dsimp only
    rw [Maps.lookup_insert, if_pos rfl, Option.map_some, Option.map_some, Option.some_inj]
    change max (state.score - what.penalty) (-2 ^ 31) = state.score ↔ _
    refine ⟨?_, ?_⟩
    · rintro h _ ⟨⟩
      omega
    · intro h
      have hscore := h state rfl
      omega

/-- A request shows, unless there is nothing to request. -/
theorem untouched_requestUnknown_iff (hashes : List BlockHash) (now : ℕ) :
    Untouched peer S (S.requestUnknown peer hashes now).1 ↔ S.AllKnown hashes := by
  have hpeers : (S.requestUnknown peer hashes now).1.peers = S.peers := peers_requestFrom _ _ _
  refine (samePool_requestFrom _ _ _).untouched_iff.trans ?_
  refine (and_iff_left (by rw [← hpeers]; rfl)).trans ?_
  have hall : S.AllKnown hashes ↔ S.wanted (hashes.filter fun h => !S.holds h) = [] := by
    unfold AllKnown wanted
    rw [List.take_eq_nil_iff, or_iff_right (by decide), List.filter_filter, List.filter_eq_nil_iff]
    refine forall₂_congr fun hash _ => ?_
    cases S.holds hash <;> simp
  rw [hall]
  refine ⟨?_, ?_⟩
  · intro hsame
    refine List.eq_nil_iff_forall_not_mem.mpr fun hash hwanted => ?_
    -- it is requested now and was not before
    have hnew : hash ∉ S.requested := by
      have hmem := List.mem_filter.mp (List.mem_of_mem_take hwanted)
      simpa using hmem.2
    have hlookup := lookup_requestFrom (S := S) peer (hashes.filter fun h => !S.holds h) now hash
    rw [if_pos hwanted] at hlookup
    exact hnew (hsame ▸ Maps.mem_of_lookup hlookup)
  · intro hnil
    refine Finmap.ext_lookup fun hash => ?_
    refine (lookup_requestFrom peer _ now hash).trans (if_neg ?_)
    rw [hnil]
    exact List.not_mem_nil

theorem untouched_onVersion_iff (version : UInt32) (genesis : BlockHash) (tips : List BlockHash)
    (now : ℕ) [HeaderHash] :
    Untouched peer S (S.onVersion peer version genesis tips now).1 ↔
      S.Harmless peer (.version version genesis tips) := by
  unfold onVersion
  change _ ↔ if version ≠ protocolVersion ∨ genesis ≠ S.config.genesis then S.AtFloor peer
    else peer ∈ S.peers → S.AllKnown tips
  -- a wrong version, a wrong genesis, a peer unknown, then the tips it announces
  split
  · next hversion =>
    rw [if_pos (Or.inl hversion)]
    exact untouched_penalise_iff _ _
  · next hversion =>
    split
    · next hgenesis =>
      rw [if_pos (Or.inr hgenesis)]
      exact untouched_penalise_iff _ _
    · next hgenesis =>
      rw [if_neg (not_or.mpr ⟨hversion, hgenesis⟩)]
      split
      · next hpeer => exact iff_of_true (Untouched.refl peer S) fun h => absurd h hpeer
      · next hpeer =>
        rw [not_not] at hpeer
        rw [forall_prop_of_true hpeer]
        have hready : Untouched peer S (S.modifyPeer peer fun state =>
            tips.foldl PeerState.noteKnown { state with handshake := .ready }) :=
          untouched_modifyPeer peer fun state => score_foldl_noteKnown tips _
        exact hready.congr_left.trans
          ((untouched_requestUnknown_iff tips now).trans (hready.allKnown_iff tips))

theorem untouched_onInvBlocks_iff (hashes : List BlockHash) (now : ℕ) :
    Untouched peer S (S.onInvBlocks peer hashes now).1 ↔ S.AllKnown hashes := by
  have hnoted : Untouched peer S (S.modifyPeer peer fun state =>
      hashes.foldl PeerState.noteKnown state) :=
    untouched_modifyPeer peer fun state => score_foldl_noteKnown hashes state
  exact hnoted.congr_left.trans
    ((untouched_requestUnknown_iff hashes now).trans (hnoted.allKnown_iff hashes))

theorem untouched_onGetBlocks [HeaderHash] (hashes : List BlockHash) :
    Untouched peer S (S.onGetBlocks peer hashes).1 := by
  unfold onGetBlocks
  dsimp only
  split
  · exact Untouched.refl peer S
  · refine untouched_modifyPeer peer fun state => ?_
    rw [← List.foldl_map]
    exact score_foldl_noteKnown _ state

end Untouched

/-! ### Blocks -/

section Blocks

variable [HeaderHash]

omit [HeaderHash] in
/-- An unrequested block leaves no trace when its turn comes. -/
theorem untouched_received {hash : BlockHash} (h : hash ∉ S.requested) :
    Untouched peer S (S.received peer hash) := by
  have herase : S.requested.erase hash = S.requested := by
    refine Finmap.ext_lookup fun b => ?_
    rw [Maps.lookup_erase]
    split
    · next he => rw [he, Finmap.lookup_eq_none.mpr h]
    · rfl
  unfold received
  rw [herase]
  exact untouched_modifyPeer (S := S) peer fun _ => rfl

/-- A block of no consequence stays one while nothing is touched. -/
theorem Idle.congr (hS : S.dag.Valid) (hT : T.dag.Valid) (h : Untouched peer S T)
    (hgate : T.gate = S.gate) {block : BlockPayload} (hidle : S.Idle peer block) :
    T.Idle peer block := by
  obtain ⟨hrequested, hcases⟩ := hidle
  refine ⟨h.requested.symm ▸ hrequested, ?_⟩
  obtain hholds | ⟨hrefused, hfloor⟩ | ⟨hpassed, hbody, e, hadd, he⟩ := hcases
  · exact Or.inl ((h.holds block.hash).trans hholds)
  · exact Or.inr (Or.inl ⟨hgate.symm ▸ hrefused, h.atFloor hfloor⟩)
  · refine Or.inr (Or.inr ⟨hgate.symm ▸ hpassed, h.bodies.symm ▸ hbody, e, ?_, he⟩)
    rw [h.dag] at hT ⊢
    rw [hS.addBlock_withCache hT]
    exact hadd

/-- The state when a block of no consequence is admitted. -/
theorem untouched_taken {block : BlockPayload} (hrequested : block.hash ∉ S.requested)
    (hbody : S.bodies.lookup block.hash = some block.transactions) :
    Untouched peer S (S.taken peer block) := by
  have hreceived : Untouched peer S (S.received peer block.hash) := untouched_received hrequested
  have hbodies : S.bodies.insert block.hash block.transactions = S.bodies := by
    refine Finmap.ext_lookup fun b => ?_
    rw [Maps.lookup_insert]
    split
    · next he => rw [he, hbody]
    · rfl
  obtain ⟨h₁, h₂, h₃, h₄, -, h₆, h₇⟩ := hreceived
  exact ⟨h₁, h₂, h₃, h₄, hbodies, h₆, h₇⟩

/-- **A block of no consequence touches nothing**, whatever is done with it. -/
theorem Idle.untouched_rebuked {block : BlockPayload} (h : S.Idle peer block)
    (hholds : (S.received peer block.hash).holds block.hash = false)
    (hrefused : ∃ reason, S.gate block.header = .error reason) :
    Untouched peer S (S.rebuked peer block.hash).1 := by
  obtain ⟨hrequested, hcases⟩ := h
  have hreceived : Untouched peer S (S.received peer block.hash) := untouched_received hrequested
  rw [hreceived.holds] at hholds
  obtain ⟨reason, hreason⟩ := hrefused
  -- of the three ways to be idle only the refused one is left
  obtain htrue | ⟨-, hfloor⟩ | ⟨⟨u, hu⟩, -⟩ := hcases
  · rw [hholds] at htrue
    cases htrue
  · exact hreceived.trans ((untouched_penalise_iff _ _).mpr (hreceived.atFloor hfloor))
  · rw [hreason] at hu
    cases hu

theorem Idle.untouched_admitBlock {block : BlockPayload} (h : S.Idle peer block)
    (hholds : (S.received peer block.hash).holds block.hash = false)
    (hpassed : ∃ u, S.gate block.header = .ok u) (now : ℕ) :
    Untouched peer S ((S.taken peer block).admitBlock block.header peer now).1 := by
  obtain ⟨hrequested, hcases⟩ := h
  have hreceived : Untouched peer S (S.received peer block.hash) := untouched_received hrequested
  rw [hreceived.holds] at hholds
  obtain ⟨u, hu⟩ := hpassed
  -- the same, with the gate passed: the store refuses the header
  obtain htrue | ⟨⟨reason, hreason⟩, -⟩ | ⟨-, hbody, e, hadd, he⟩ := hcases
  · rw [hholds] at htrue
    cases htrue
  · rw [hreason] at hu
    cases hu
  · have htaken : Untouched peer S (S.taken peer block) := untouched_taken hrequested hbody
    have hdag : (S.taken peer block).dag = S.dag := (samePool_received peer block.hash).dag
    obtain ⟨hash, hok, -⟩ | ⟨hash, parent, hmissing, -⟩ | ⟨-, -, -, hadmitted⟩ :=
      (S.taken peer block).admit_cases block.header peer now
    · rw [hdag, hadd] at hok
      cases hok
    · rw [hdag, hadd] at hmissing
      exact absurd (Except.error.inj hmissing) (he hash parent)
    · -- refused: the memo table alone may have changed
      rw [hadmitted]
      refine htaken.trans ⟨?_, rfl, rfl, rfl, rfl, rfl, rfl⟩
      exact DagStore.addBlock_of_error (hdag.symm ▸ hadd)

/-- **A batch of blocks of no consequence touches nothing.** -/
theorem untouched_onBlocks (hvalid : S.dag.Valid) {blocks : List BlockPayload}
    (h : ∀ block ∈ blocks, S.Idle peer block) (now : ℕ) :
    Untouched peer S (S.onBlocks peer blocks now).1 := by
  -- the blocks still to come are of no consequence in the state reached either
  have hloop := deliver_induct peer now
    (P := fun rest T _ => (∀ block ∈ rest, S.Idle peer block) ∧ Untouched peer S T ∧
      T.gate = S.gate ∧ T.dag.Valid)
    ?_ ?_ ?_ ?_ blocks S [] ⟨h, Untouched.refl peer S, rfl, hvalid⟩
  · exact hloop.2.1
  · rintro block rest T _ - ⟨hrest, hT, hgate, hvalidT⟩
    have hidle := (hrest block List.mem_cons_self).congr hvalid hvalidT hT hgate
    have hsame := samePool_received (S := T) peer block.hash
    exact ⟨fun b hb => hrest b (List.mem_cons_of_mem _ hb), hT.trans (untouched_received hidle.1),
      hsame.gate.trans hgate, hsame.dag.symm ▸ hvalidT⟩
  · rintro block rest T _ hholds hrefused - ⟨hrest, hT, hgate, hvalidT⟩
    have hidle := (hrest block List.mem_cons_self).congr hvalid hvalidT hT hgate
    have hsame := samePool_rebuked (S := T) peer block.hash
    exact ⟨fun b hb => hrest b (List.mem_cons_of_mem _ hb),
      hT.trans (hidle.untouched_rebuked hholds hrefused), hsame.gate.trans hgate,
      hsame.dag.symm ▸ hvalidT⟩
  · rintro block rest T _ hholds hrefused - ⟨hrest, hT, hgate, hvalidT⟩
    have hidle := (hrest block List.mem_cons_self).congr hvalid hvalidT hT hgate
    have hsame := samePool_rebuked (S := T) peer block.hash
    exact ⟨fun b hb => absurd hb List.not_mem_nil,
      hT.trans (hidle.untouched_rebuked hholds hrefused), hsame.gate.trans hgate,
      hsame.dag.symm ▸ hvalidT⟩
  · rintro block rest T _ hholds hpassed ⟨hrest, hT, hgate, hvalidT⟩
    have hidle := (hrest block List.mem_cons_self).congr hvalid hvalidT hT hgate
    have hsame := samePool_received (S := T) peer block.hash
    have hsetup := (sameSetup_taken (S := T) peer block).trans
      (sameSetup_admitBlock (S := T.taken peer block) block.header peer now)
    refine ⟨fun b hb => hrest b (List.mem_cons_of_mem _ hb),
      hT.trans (hidle.untouched_admitBlock hholds hpassed now), hsetup.gate.trans hgate, ?_⟩
    refine (grown_admitBlock (S := T.taken peer block) block.header peer now).valid ?_
    exact hsame.dag.symm ▸ hvalidT

/-- What becomes of a batch of one block. -/
theorem onBlocks_singleton (S : DagSync) (peer : PeerId) (block : BlockPayload) (now : ℕ) :
    (S.onBlocks peer [block] now).1 = S.received peer block.hash ∧
      (S.received peer block.hash).holds block.hash = true ∨
    (S.onBlocks peer [block] now).1 = (S.rebuked peer block.hash).1 ∧
      (∃ reason, S.gate block.header = .error reason) ∨
    (S.onBlocks peer [block] now).1 = ((S.taken peer block).admitBlock block.header peer now).1 ∧
      (S.received peer block.hash).holds block.hash = false ∧
        ∃ u, S.gate block.header = .ok u := by
  -- the loop over a frame of one block: it is left with nothing to do or has done one thing
  have hloop := deliver_induct peer now
    (P := fun rest T _ => rest = [block] ∧ T = S ∨ rest = [] ∧
      (T = S.received peer block.hash ∧ (S.received peer block.hash).holds block.hash = true ∨
        T = (S.rebuked peer block.hash).1 ∧ (∃ reason, S.gate block.header = .error reason) ∨
        T = ((S.taken peer block).admitBlock block.header peer now).1 ∧
          (S.received peer block.hash).holds block.hash = false ∧
            ∃ u, S.gate block.header = .ok u))
    ?_ ?_ ?_ ?_ [block] S [] (Or.inl ⟨rfl, rfl⟩)
  · obtain ⟨habsurd, -⟩ | ⟨-, hcases⟩ := hloop
    · cases habsurd
    · exact hcases
  · rintro _ _ _ _ hholds (⟨⟨⟩, rfl⟩ | ⟨⟨⟩, -⟩)
    exact Or.inr ⟨rfl, Or.inl ⟨rfl, hholds⟩⟩
  · rintro _ _ _ _ - hrefused - (⟨⟨⟩, rfl⟩ | ⟨⟨⟩, -⟩)
    exact Or.inr ⟨rfl, Or.inr (Or.inl ⟨rfl, hrefused⟩)⟩
  · rintro _ _ _ _ - hrefused - (⟨⟨⟩, rfl⟩ | ⟨⟨⟩, -⟩)
    exact Or.inr ⟨rfl, Or.inr (Or.inl ⟨rfl, hrefused⟩)⟩
  · rintro _ _ _ _ hholds hpassed (⟨⟨⟩, rfl⟩ | ⟨⟨⟩, -⟩)
    exact Or.inr ⟨rfl, Or.inr (Or.inr ⟨rfl, hholds, hpassed⟩)⟩

omit [HeaderHash] in
theorem not_mem_requested_of_erase {hash : BlockHash} (h : S.requested.erase hash = S.requested) :
    hash ∉ S.requested := by
  intro hmem
  rw [← h] at hmem
  exact Finmap.notMem_erase_self hmem

/-- **A block that touches nothing was of no consequence.** -/
theorem idle_of_untouched {block : BlockPayload} {now : ℕ}
    (h : Untouched peer S (S.onBlocks peer [block] now).1) : S.Idle peer block := by
  have hsame := samePool_received (S := S) peer block.hash
  have herase := requested_received (S := S) peer block.hash
  have hholds : (S.received peer block.hash).holds block.hash = S.holds block.hash := by
    unfold DagSync.holds
    rw [hsame.dag, hsame.orphans]
  -- what the one block did, and why none of it may show
  obtain ⟨he, hheld⟩ | ⟨he, hrefused⟩ | ⟨he, hnew, hpassed⟩ := S.onBlocks_singleton peer block now
  · rw [he] at h
    exact ⟨not_mem_requested_of_erase (herase.symm.trans h.requested), Or.inl (hholds ▸ hheld)⟩
  · rw [he] at h
    have hrequested := (onlyPeers_penalise (S := S.received peer block.hash) peer .invalidBlock
      "invalid block").requested.symm.trans h.requested
    have hidle := not_mem_requested_of_erase (herase.symm.trans hrequested)
    have hreceived : Untouched peer S (S.received peer block.hash) := untouched_received hidle
    have hfloor : (S.received peer block.hash).AtFloor peer :=
      (untouched_penalise_iff .invalidBlock "invalid block").mp (hreceived.congr_left.mp h)
    exact ⟨hidle, Or.inr (Or.inl ⟨hrefused, hreceived.symm.atFloor hfloor⟩)⟩
  · -- it was taken in: it joined, was held, or was refused
    rw [he] at h
    rw [hholds] at hnew
    simp only [DagSync.holds, Bool.or_eq_false_iff, decide_eq_false_iff_not] at hnew
    obtain ⟨hash, hok, hadmitted⟩ | ⟨hash, parent, hmissing, hadmitted⟩ | ⟨e, hadd, hne, hadmitted⟩ :=
      (S.taken peer block).admit_cases block.header peer now
    · -- it has joined, and what has joined stays
      rw [hadmitted] at h
      have hjoined := (DagStore.headers_addBlock_of_ok hok).2
      have hmem : block.hash ∈ ((S.taken peer block).relayed block.header peer).1.dag.headers := by
        rw [dag_relayed, hjoined, Finmap.mem_insert]
        exact Or.inl rfl
      have hstill := (grown_resolveOrphansOf block.header.hash).mem hmem
      rw [h.dag] at hstill
      exact absurd hstill hnew.1
    · -- it is held as an orphan
      rw [hadmitted] at h
      have horphans := (samePool_requestFrom _ _ now).orphans.symm.trans h.orphans
      refine absurd ?_ hnew.2
      rw [← horphans]
      exact Finmap.mem_insert.mpr (Or.inl rfl)
    · rw [hadmitted] at h
      refine ⟨not_mem_requested_of_erase (herase.symm.trans h.requested), Or.inr (Or.inr ⟨hpassed, ?_, e, ?_, hne⟩)⟩
      · rw [← h.bodies]
        exact Finmap.lookup_insert _
      · exact hsame.dag ▸ hadd

/-! ### Messages -/

/-- Nothing but the handshake of a peer that is not ready is looked at. -/
theorem harmless_of_not_ready {message : Message} (hready : S.isReady peer = false)
    (hmessage : message.isHandshake = false) : S.Harmless peer message := by
  have hnot : ¬ S.isReady peer = true := by
    rw [hready]
    exact Bool.false_ne_true
  cases message with
  | version version genesis tips => cases hmessage
  | tips hashes => exact fun h => absurd h hnot
  | invBlocks hashes => exact fun h => absurd h hnot
  | blocks blocks => exact fun h => absurd h hnot
  | _ => exact trivial

/-- **A message other than blocks touches nothing** exactly when it is harmless. -/
theorem untouched_onMessage_iff {message : Message} (hblocks : ∀ blocks, message ≠ .blocks blocks)
    (now : ℕ) : Untouched peer S (S.onMessage peer message now).1 ↔ S.Harmless peer message := by
  by_cases hquiet : S.isReady peer = false ∧ message.isHandshake = false
  · rw [onMessage_of_not_ready now hquiet.1 hquiet.2]
    exact iff_of_true (Untouched.refl peer S) (harmless_of_not_ready hquiet.1 hquiet.2)
  have hhandled : ¬ (!S.isReady peer && !message.isHandshake) = true := by
    simpa using hquiet
  unfold onMessage
  split
  · next hpeer =>
    -- nobody of that name is connected
    have hnone : S.peers.lookup peer = none := Finmap.lookup_eq_none.mpr hpeer
    have hunready : S.isReady peer = false := by
      unfold DagSync.isReady
      rw [hnone]
      rfl
    refine iff_of_true (Untouched.refl peer S) ?_
    cases message with
    | version version genesis tips =>
      change if _ then _ else _
      split
      · exact fun state hl => absurd (hnone.symm.trans hl) nofun
      · exact fun h => absurd h hpeer
    | verack => exact trivial
    | _ => exact absurd ⟨hunready, rfl⟩ hquiet
  · next hpeer =>
    have hready : message.isHandshake = false → S.isReady peer = true := fun hmessage =>
      Bool.not_eq_false _ ▸ fun hunready => hquiet ⟨hunready, hmessage⟩
    cases message with
    | version version genesis tips => exact untouched_onVersion_iff version genesis tips now
    | verack => exact iff_of_true (untouched_modifyPeer peer fun _ => rfl) trivial
    | tips hashes =>
      exact (untouched_requestUnknown_iff hashes now).trans ⟨fun h _ => h, fun h => h (hready rfl)⟩
    | invBlocks hashes =>
      exact (untouched_onInvBlocks_iff hashes now).trans ⟨fun h _ => h, fun h => h (hready rfl)⟩
    | getBlocks hashes => exact iff_of_true (untouched_onGetBlocks hashes) trivial
    | blocks blocks => exact absurd rfl (hblocks blocks)
    | _ => exact iff_of_true (Untouched.refl peer S) trivial

/-- **A harmless message touches nothing.** -/
theorem untouched_onMessage (hvalid : S.dag.Valid) {message : Message}
    (h : S.Harmless peer message) (now : ℕ) :
    Untouched peer S (S.onMessage peer message now).1 := by
  obtain ⟨blocks, rfl, hready, hstep⟩ | ⟨blocks, rfl, -, hstep⟩ | hother :=
    S.onMessage_cases peer message now
  · rw [hstep]
    exact untouched_onBlocks hvalid (h hready) now
  · rw [hstep]
    exact Untouched.refl peer S
  · exact (untouched_onMessage_iff hother now).mpr h

/-- A message that touches nothing was harmless, a batch of several blocks excepted. -/
theorem harmless_of_untouched {message : Message}
    (hbatch : ∀ blocks, message = .blocks blocks → blocks.length ≤ 1) {now : ℕ}
    (h : Untouched peer S (S.onMessage peer message now).1) : S.Harmless peer message := by
  by_cases hblocks : ∃ blocks, message = .blocks blocks
  · obtain ⟨blocks, rfl⟩ := hblocks
    intro hready block hmem
    rw [onMessage_blocks blocks now hready] at h
    -- the frame holds at most one block
    have hsingle : blocks = [block] := by
      obtain ⟨b, rfl⟩ := List.length_eq_one_iff.mp
        (le_antisymm (hbatch blocks rfl) (List.length_pos_of_mem hmem))
      rw [List.mem_singleton.mp hmem]
    rw [hsingle] at h
    exact idle_of_untouched h
  · exact (untouched_onMessage_iff (fun blocks he => hblocks ⟨blocks, he⟩) now).mp h

end Blocks

end DagSync

/-! ### Frames of banned connections -/

open DagSync

/-- The peers that a batch of actions disconnects. -/
def disconnects (actions : List Action) : Finset PeerId :=
  (actions.filterMap fun
    | .disconnect peer _ => some peer
    | .send _ _ => none).toFinset

namespace P2pNode

section Watch

variable [HeaderHash]

/-- A step of a node, with the peers for which a `Disconnect` has been dispatched so far. -/
def watch (world : P2pNode × Finset PeerId) (event : P2pEvent) : P2pNode × Finset PeerId :=
  (world.1.step event, world.2 ∪ disconnects (world.1.dispatched event))

/-- A frame that is read and decoded. -/
def Decodes (node : P2pNode) (peer : PeerId) (bytes : List UInt8) (message : Message) : Prop :=
  node.isReading peer = true ∧ bytes ≠ [] ∧ bytes.length ≤ maxFrameBytes ∧
    Message.decodeFromSlice bytes = .ok message

/-- If the event is a frame of a banned connection, it has no effect. -/
def BanHolds (world : P2pNode × Finset PeerId) (event : P2pEvent) : Prop :=
  ∀ peer bytes now, event = .frame peer bytes now → peer ∈ world.2 →
    Untouched peer world.1.sync (world.1.step event).sync

/-- If the event is a frame of a banned connection, what it decodes to is harmless. -/
def FrameHarmless (world : P2pNode × Finset PeerId) (event : P2pEvent) : Prop :=
  ∀ peer bytes now message, event = .frame peer bytes now → peer ∈ world.2 →
    world.1.Decodes peer bytes message → world.1.sync.Harmless peer message

/-- No frame carries more than one block. -/
def SingleBlocks (events : List P2pEvent) : Prop :=
  ∀ peer bytes now blocks, .frame peer bytes now ∈ events →
    Message.decodeFromSlice bytes = .ok (.blocks blocks) → blocks.length ≤ 1

/-! ### One frame, and a run -/

/-- What a frame does to the state machine: what its message does, if it has one. -/
theorem sync_step_frame (node : P2pNode) (peer : PeerId) (bytes : List UInt8) (now : ℕ) :
    (∃ message, node.Decodes peer bytes message ∧
      (node.step (.frame peer bytes now)).sync = (node.sync.onMessage peer message now).1) ∨
    (∀ message, ¬ node.Decodes peer bytes message) ∧
      (node.step (.frame peer bytes now)).sync = node.sync := by
  unfold P2pNode.step readFrame
  dsimp only
  -- what is read, in the order of the reader: the connection, the size, the codec
  split
  · next hreading =>
    split
    · next hsize =>
      refine Or.inr ⟨fun message h => ?_, rfl⟩
      obtain hempty | hlarge := hsize
      · exact h.2.1 hempty
      · exact absurd h.2.2.1 (not_le.mpr hlarge)
    · next hsize =>
      rw [not_or, not_lt] at hsize
      split
      · next message hdecode => exact Or.inl ⟨message, ⟨hreading, hsize.1, hsize.2, hdecode⟩, rfl⟩
      · next e hdecode =>
        refine Or.inr ⟨fun message h => ?_, rfl⟩
        exact absurd (hdecode.symm.trans h.2.2.2) nofun
  · next hreading => exact Or.inr ⟨fun message h => hreading h.1, rfl⟩

/-- What an event does to the state machine: one call, or nothing. -/
theorem sync_step (node : P2pNode) (event : P2pEvent) :
    (node.step event).sync = node.sync ∨ ∃ call, (node.step event).sync = node.sync.step call := by
  cases event with
  | connection => exact Or.inl rfl
  | resume peer =>
    change (node.resume peer).sync = _ ∨ ∃ call, (node.resume peer).sync = _
    -- only registering and unregistering a peer touch the synchroniser
    unfold resume
    split
    · exact Or.inl rfl
    · exact Or.inl rfl
    · exact Or.inr ⟨.connect peer, rfl⟩
    · exact Or.inl rfl
    · exact Or.inl rfl
    · exact Or.inl rfl
    · exact Or.inr ⟨.disconnect peer, rfl⟩
  | frame peer bytes now =>
    obtain ⟨message, -, he⟩ | ⟨-, he⟩ := node.sync_step_frame peer bytes now
    · exact Or.inr ⟨.message peer message now, he⟩
    · exact Or.inl he
  | finish peer =>
    unfold P2pNode.step
    dsimp only
    split
    · exact Or.inl rfl
    · exact Or.inl rfl
  | tick now => exact Or.inr ⟨.tick now, rfl⟩
  | localBlock block => exact Or.inr ⟨.localBlock block, rfl⟩
  | dispatch n => exact Or.inl rfl
  | written peer =>
    unfold P2pNode.step
    dsimp only
    split
    · exact Or.inl rfl
    · exact Or.inl rfl
  | writeFailed peer =>
    unfold P2pNode.step
    dsimp only
    split
    · exact Or.inl rfl
    · exact Or.inl rfl

theorem valid_step {node : P2pNode} (h : node.sync.dag.Valid) (event : P2pEvent) :
    (node.step event).sync.dag.Valid := by
  obtain he | ⟨call, he⟩ := node.sync_step event
  · rw [he]
    exact h
  · rw [he]
    exact (grown_step call).valid h

/-- **One frame**: harmless frames of banned connections have no effect. -/
theorem banHolds_of_harmless {world : P2pNode × Finset PeerId} (hvalid : world.1.sync.dag.Valid)
    {event : P2pEvent} (h : FrameHarmless world event) : BanHolds world event := by
  rintro peer bytes now rfl hbanned
  obtain ⟨message, hdecodes, he⟩ | ⟨-, he⟩ := world.1.sync_step_frame peer bytes now
  · rw [he]
    exact untouched_onMessage hvalid (h peer bytes now message rfl hbanned hdecodes) now
  · rw [he]
    exact Untouched.refl peer _

/-- Frames without effect are harmless, batches of several blocks excepted. -/
theorem harmless_of_banHolds {world : P2pNode × Finset PeerId} {event : P2pEvent}
    (hsingle : SingleBlocks [event]) (h : BanHolds world event) : FrameHarmless world event := by
  rintro peer bytes now message rfl hbanned hdecodes
  have huntouched := h peer bytes now rfl hbanned
  obtain ⟨message', hdecodes', he⟩ | ⟨hnone, -⟩ := world.1.sync_step_frame peer bytes now
  · obtain rfl := Except.ok.inj (hdecodes.2.2.2.symm.trans hdecodes'.2.2.2)
    rw [he] at huntouched
    refine harmless_of_untouched (fun blocks hblocks => ?_) huntouched
    exact hsingle peer bytes now blocks List.mem_cons_self (hblocks ▸ hdecodes.2.2.2)
  · exact absurd hdecodes (hnone message)

/-- **A ban and the frames that come after it.** In every run of a node the frames of banned
connections have no effect if each is harmless, and for frames of at most one block only if
each is. -/
theorem ban_without_effect (genesis : Header) (k : UInt16) (limit : ℕ)
    (gate : Header → Except String Unit) (config : SyncConfig) (events : List P2pEvent) :
    (Runs.Each watch FrameHarmless
        (P2pNode.new (DagSync.new (DagStore.new genesis k limit) gate config), ∅) events →
      Runs.Each watch BanHolds
        (P2pNode.new (DagSync.new (DagStore.new genesis k limit) gate config), ∅) events) ∧
    (SingleBlocks events →
      Runs.Each watch BanHolds
        (P2pNode.new (DagSync.new (DagStore.new genesis k limit) gate config), ∅) events →
      Runs.Each watch FrameHarmless
        (P2pNode.new (DagSync.new (DagStore.new genesis k limit) gate config), ∅) events) := by
  have hvalid : (P2pNode.new (DagSync.new (DagStore.new genesis k limit) gate config)).sync.dag.Valid :=
    DagStore.new_valid genesis k limit
  -- one way over the valid stores, the other for frames of one block
  refine ⟨Runs.Each.imp (I := fun world => world.1.sync.dag.Valid)
    (fun _ event h => valid_step h event) (fun _ h _ _ => banHolds_of_harmless h) hvalid, ?_⟩
  intro hsingle
  refine Runs.Each.imp (I := fun _ => True) (fun _ _ _ => trivial) ?_ trivial
  intro world _ event hmem
  refine harmless_of_banHolds fun peer bytes now blocks hevent => ?_
  exact hsingle peer bytes now blocks (List.mem_singleton.mp hevent ▸ hmem)

/-- A frame that is decoded is handed to the state machine. -/
theorem step_frame {node : P2pNode} {peer : PeerId} {message : Message}
    (hreading : node.isReading peer = true) (hmessage : message.Receivable) (now : ℕ) :
    node.step (.frame peer message.encodeToVec now) = node.receive peer message now := by
  have hsize : ¬ (message.encodeToVec = [] ∨ maxFrameBytes < message.encodeToVec.length) :=
    not_or.mpr ⟨List.cons_ne_nil _ _, not_lt.mpr hmessage.1⟩
  unfold P2pNode.step readFrame
  dsimp only
  rw [if_pos hreading, if_neg hsize, hmessage.2]

end Watch

section Heard

open Sample

/-- A peer connects, and its connection is read. -/
def connect : List P2pEvent := [.connection, .resume 0, .resume 0, .resume 0]

/-- It announces another version, and the answer is dispatched. -/
def outcast : List P2pEvent :=
  connect ++ [.frame 0 (Message.version 2 (hashOf 0) []).encodeToVec 0, .resume 0]

/-- The node after that, with the frame given as the message it is decoded to. -/
def afterBan : P2pNode × Finset PeerId :=
  let world := Runs.after watch (P2pNode.new lone, ∅) connect
  watch (world.1.receive 0 (.version 2 (hashOf 0) []) 0, world.2) (.resume 0)

theorem after_outcast : Runs.after watch (P2pNode.new lone, ∅) outcast = afterBan := by
  have hmessage : (Message.version 2 (hashOf 0) []).Receivable :=
    (Message.receivable_of_not_blocks (by nofun)).mpr (by decide : 0 ≤ maxInvEntries)
  have hreading : (Runs.after watch (P2pNode.new lone, ∅) connect).1.isReading 0 = true := by
    decide +kernel
  unfold Runs.after outcast afterBan at *
  rw [List.foldl_append, List.foldl_cons, List.foldl_cons, List.foldl_nil]
  -- a frame dispatches nothing by itself
  have hframe := step_frame hreading hmessage 0
  exact congrArg (fun node => watch (node, _) (.resume 0)) hframe

/-- **A banned peer is heard.** It announces our version after all, and a block, and the block is
requested from it. -/
theorem banned_peer_is_heard :
    ¬ Runs.Each watch BanHolds (P2pNode.new lone, ∅)
      (outcast ++ [.frame 0 (Message.version protocolVersion (hashOf 0) [hashOf 1]).encodeToVec 0]) := by
  intro h
  obtain ⟨-, hlast, -⟩ := Runs.each_append.mp h
  rw [after_outcast] at hlast
  have hmessage : (Message.version protocolVersion (hashOf 0) [hashOf 1]).Receivable :=
    (Message.receivable_of_not_blocks (by nofun)).mpr (by decide : 1 ≤ maxInvEntries)
  have hreading : afterBan.1.isReading 0 = true := by decide +kernel
  have huntouched := hlast 0 _ 0 rfl (by decide +kernel)
  rw [step_frame hreading hmessage] at huntouched
  have hrequested := congrArg Finmap.keys huntouched.requested
  exact absurd hrequested (by decide +kernel)

end Heard

end P2pNode

end Chainname
