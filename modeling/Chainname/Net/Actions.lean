import Chainname.Net.Receivable

/-!
# What a call makes a node do

A property of single actions is had by everything a call makes a node do if it is had by the
messages that are alike in every state, by the opening message, by the answer to a request for
blocks, and by a disconnection in the cases where there is one (`all_call`). Only the peer whose
message is handled is ever disconnected, and only for an offence (`Offends`).
-/

namespace Chainname

/-- A property that messages have which copy nothing from the state. -/
structure Action.Plain (R : Action → Prop) : Prop where
  verack : ∀ peer, R (.send peer .verack)
  pong : ∀ peer nonce, R (.send peer (.pong nonce))
  getTips : ∀ peer, R (.send peer .getTips)
  tips : ∀ peer hashes, R (.send peer (.tips hashes))
  invBlocks : ∀ peer hashes, R (.send peer (.invBlocks hashes))
  getBlocks : ∀ peer hashes, R (.send peer (.getBlocks hashes))

namespace DagSync

variable {S : DagSync} {R : Action → Prop}

/-! ### Parts of a call -/

theorem all_announce (hR : Action.Plain R) (hash : BlockHash) (exclude : Option PeerId) :
    ∀ action ∈ (S.announce hash exclude).2, R action := by
  intro action hmem
  obtain ⟨peer, -, rfl⟩ := List.mem_map.mp hmem
  exact hR.invBlocks peer _

theorem all_requestFrom (hR : Action.Plain R) (peer : PeerId) (hashes : List BlockHash)
    (now : ℕ) : ∀ action ∈ (S.requestFrom peer hashes now).2, R action := by
  unfold requestFrom
  dsimp only
  split
  · exact fun _ h => absurd h List.not_mem_nil
  · exact List.forall_mem_singleton.mpr (hR.getBlocks peer _)

/-- A penalty may end in a disconnection of the peer. -/
theorem all_penalise {peer : PeerId} (hban : ∀ reason, R (.disconnect peer reason))
    (what : Misbehaviour) (reason : String) :
    ∀ action ∈ (S.penalise peer what reason).2, R action := by
  unfold DagSync.penalise
  split
  · exact fun _ h => absurd h List.not_mem_nil
  · dsimp only
    split
    · exact List.forall_mem_singleton.mpr (hban reason)
    · exact fun _ h => absurd h List.not_mem_nil

theorem all_requestBuckets (hR : Action.Plain R) (now : ℕ)
    (buckets : List (PeerId × List BlockHash)) {actions : List Action}
    (h : ∀ action ∈ actions, R action) :
    ∀ action ∈ (requestBuckets now buckets S actions).2, R action := by
  induction buckets generalizing S actions with
  | nil => exact h
  | cons entry buckets ih =>
    unfold requestBuckets
    split
    · exact ih h
    · exact ih (List.forall_mem_append.mpr ⟨h, all_requestFrom hR _ _ now⟩)

theorem all_onVersion (hR : Action.Plain R) {peer : PeerId} {version : UInt32}
    {genesis : BlockHash}
    (hban : version ≠ protocolVersion ∨ genesis ≠ S.config.genesis →
      ∀ reason, R (.disconnect peer reason))
    (tips : List BlockHash) (now : ℕ) :
    ∀ action ∈ (S.onVersion peer version genesis tips now).2, R action := by
  unfold onVersion
  -- a mismatch bans, an unknown peer is ignored, the rest is answered
  split
  · next hversion => exact all_penalise (hban (Or.inl hversion)) _ _
  · split
    · next hgenesis => exact all_penalise (hban (Or.inr hgenesis)) _ _
    · split
      · exact fun _ h => absurd h List.not_mem_nil
      · exact List.forall_mem_cons.mpr ⟨hR.verack peer, all_requestFrom hR peer _ now⟩

theorem all_onTick (hR : Action.Plain R) (hversion : ∀ peer, R (.send peer S.versionMessage))
    (now : ℕ) : ∀ action ∈ (S.onTick now).2, R action := by
  unfold onTick
  dsimp only
  -- the handshakes, the retries, the tips asked for, in the order of the tick
  refine List.forall_mem_append.mpr ⟨List.forall_mem_append.mpr ⟨?_, ?_⟩, ?_⟩
  · intro action hmem
    obtain ⟨peer, -, rfl⟩ := List.mem_map.mp hmem
    exact hversion peer
  · split
    · exact fun _ h => absurd h List.not_mem_nil
    · exact all_requestBuckets hR now _ fun _ h => absurd h List.not_mem_nil
  · intro action hmem
    obtain ⟨peer, -, rfl⟩ := List.mem_map.mp hmem
    exact hR.getTips peer

section Blocks

variable [HeaderHash]

theorem all_resolveOrphansOf (hR : Action.Plain R) (hash : BlockHash) :
    ∀ action ∈ (S.resolveOrphansOf hash).2, R action := by
  refine resolveOrphansOf_induct (P := fun _ _ actions => ∀ action ∈ actions, R action)
    (fun _ _ _ _ _ h => h) (fun _ queue T actions children _ h => ?_) S hash
    fun _ h => absurd h List.not_mem_nil
  refine tryChildren_induct (P := fun _ _ actions _ => ∀ action ∈ actions, R action) ?_ ?_ ?_ ?_
    (Maps.sortedKeys children) (T.released _) actions queue h
  · exact fun _ _ _ _ _ _ h => h
  · exact fun _ _ _ _ _ _ _ _ h => h
  · intro child _ U _ _ orphan _ _ _ h
    exact List.forall_mem_append.mpr ⟨h, all_announce hR child (some orphan.sender)⟩
  · exact fun _ _ _ _ _ _ _ _ _ h => h

theorem all_admitBlock (hR : Action.Plain R) (header : Header) (sender : PeerId) (now : ℕ) :
    ∀ action ∈ (S.admitBlock header sender now).2, R action := by
  obtain ⟨hash, -, he⟩ | ⟨block, parent, -, he⟩ | ⟨e, -, -, he⟩ := S.admit_cases header sender now
  · rw [he]
    exact List.forall_mem_append.mpr
      ⟨all_announce hR header.hash (some sender), all_resolveOrphansOf hR header.hash⟩
  · rw [he]
    exact all_requestFrom hR sender _ now
  · rw [he]
    exact fun _ h => absurd h List.not_mem_nil

/-- Delivered blocks lead to a disconnection only if the gate refuses one that is new. -/
theorem all_onBlocks (hR : Action.Plain R) {peer : PeerId} {blocks : List BlockPayload}
    (hban : (∃ block ∈ blocks, block.hash ∉ S.dag.headers ∧
      ∃ reason, S.gate block.header = .error reason) → ∀ reason, R (.disconnect peer reason))
    (now : ℕ) : ∀ action ∈ (S.onBlocks peer blocks now).2, R action := by
  -- a block that is refused was not stored at the start either, since nothing leaves the store
  have hrefused : ∀ {block : BlockPayload} {rest} {T : DagSync}, T.gate = S.gate → S.Grown T →
      block :: rest ⊆ blocks → (T.received peer block.hash).holds block.hash = false →
      (∃ reason, T.gate block.header = .error reason) → ∀ reason, R (.disconnect peer reason) := by
    rintro block rest T hgate hgrown hsub hnew ⟨reason, herror⟩
    refine hban ⟨block, hsub List.mem_cons_self, fun hmem => ?_, reason, hgate ▸ herror⟩
    have hstored : block.hash ∈ (T.received peer block.hash).dag.headers := by
      rw [(samePool_received peer block.hash).dag]
      exact hgrown.mem hmem
    exact (holds_eq_false_iff.mp hnew).1 hstored
  have hrest : ∀ {block : BlockPayload} {rest}, block :: rest ⊆ blocks → rest ⊆ blocks :=
    fun hsub _ hmem => hsub (List.mem_cons_of_mem _ hmem)
  refine (deliver_induct peer now (P := fun rest T actions => T.gate = S.gate ∧ S.Grown T ∧
    rest ⊆ blocks ∧ ∀ action ∈ actions, R action) ?_ ?_ ?_ ?_ blocks S []
    ⟨rfl, .of_eq rfl, List.Subset.refl _, fun _ h => absurd h List.not_mem_nil⟩).2.2.2
  · rintro block rest T actions - ⟨hgate, hgrown, hsub, h⟩
    have hpool := samePool_received (S := T) peer block.hash
    exact ⟨hpool.gate.trans hgate, hgrown.trans (.of_eq hpool.dag), hrest hsub, h⟩
  · rintro block rest T actions hnew herror - ⟨hgate, hgrown, hsub, h⟩
    have hpool := samePool_rebuked (S := T) peer block.hash
    exact ⟨hpool.gate.trans hgate, hgrown.trans (.of_eq hpool.dag), hrest hsub,
      List.forall_mem_append.mpr
        ⟨h, all_penalise (hrefused hgate hgrown hsub hnew herror) _ _⟩⟩
  · rintro block rest T actions hnew herror - ⟨hgate, hgrown, hsub, h⟩
    have hpool := samePool_rebuked (S := T) peer block.hash
    exact ⟨hpool.gate.trans hgate, hgrown.trans (.of_eq hpool.dag), List.nil_subset _,
      List.forall_mem_append.mpr
        ⟨h, all_penalise (hrefused hgate hgrown hsub hnew herror) _ _⟩⟩
  · rintro block rest T actions - - ⟨hgate, hgrown, hsub, h⟩
    have hsetup := (sameSetup_taken (S := T) peer block).trans
      (sameSetup_admitBlock block.header peer now)
    have htaken : (T.taken peer block).dag = T.dag := (samePool_received peer block.hash).dag
    exact ⟨hsetup.gate.trans hgate,
      (hgrown.trans (.of_eq htaken)).trans (grown_admitBlock block.header peer now), hrest hsub,
      List.forall_mem_append.mpr ⟨h, all_admitBlock hR block.header peer now⟩⟩

theorem all_onLocalBlock (hR : Action.Plain R) (block : BlockPayload) :
    ∀ action ∈ (S.onLocalBlock block).2, R action := by
  obtain ⟨hash, -, he⟩ | ⟨e, -, he⟩ := S.onLocalBlock_cases block
  · rw [he]
    exact List.forall_mem_append.mpr
      ⟨all_announce hR block.hash none, all_resolveOrphansOf hR block.hash⟩
  · rw [he]
    exact fun _ h => absurd h List.not_mem_nil

end Blocks

/-! ### Calls -/

/-- What a message must be for its sender to be disconnected. -/
inductive Offends [HeaderHash] (S : DagSync) (peer : PeerId) : Message → Prop where
  | unknown {message : Message} : peer ∉ S.peers → Offends S peer message
  | version {version : UInt32} {genesis : BlockHash} {tips : List BlockHash} :
      version ≠ protocolVersion ∨ genesis ≠ S.config.genesis →
      Offends S peer (.version version genesis tips)
  | refused {blocks : List BlockPayload} :
      (∃ block ∈ blocks, block.hash ∉ S.dag.headers ∧
        ∃ reason, S.gate block.header = .error reason) → Offends S peer (.blocks blocks)

theorem all_onMessage [HeaderHash] (hR : Action.Plain R)
    (hversion : ∀ peer, R (.send peer S.versionMessage)) {peer : PeerId} {message : Message}
    (hblocks : ∀ hashes, message = .getBlocks hashes → S.isReady peer = true →
      R (.send peer (.blocks (S.asked hashes))))
    (hban : S.Offends peer message → ∀ reason, R (.disconnect peer reason)) (now : ℕ) :
    ∀ action ∈ (S.onMessage peer message now).2, R action := by
  have hnil : ∀ action ∈ ([] : List Action), R action := fun _ h => absurd h List.not_mem_nil
  unfold onMessage
  split
  · -- a message from a peer that is not registered is answered by a disconnect
    next hpeer => exact List.forall_mem_singleton.mpr (hban (.unknown hpeer) _)
  · split
    · exact List.forall_mem_singleton.mpr (hversion peer)
    · next hready =>
      cases message with
      | version v genesis tips =>
        exact all_onVersion hR (fun hwrong => hban (.version hwrong)) tips now
      | verack => exact hnil
      | ping nonce => exact List.forall_mem_singleton.mpr (hR.pong peer nonce)
      | pong _ => exact hnil
      | getTips => exact List.forall_mem_singleton.mpr (hR.tips peer _)
      | tips hashes => exact all_requestFrom hR peer _ now
      | invBlocks hashes => exact all_requestFrom hR peer _ now
      | getBlocks hashes =>
        -- the handshake guard let it through, so the peer is ready
        have hpeerReady : S.isReady peer = true := by
          rw [Bool.and_eq_true, Bool.not_eq_true', Bool.not_eq_true', not_and] at hready
          exact Bool.not_eq_false _ ▸ fun hnew => hready hnew rfl
        show ∀ action ∈ (S.onGetBlocks peer hashes).2, R action
        unfold onGetBlocks
        dsimp only
        split
        · exact hnil
        · exact List.forall_mem_singleton.mpr (hblocks hashes rfl hpeerReady)
      | blocks blocks => exact all_onBlocks hR (fun hwrong => hban (.refused hwrong)) now
      | invTxs _ => exact hnil
      | getTxs _ => exact hnil

/-- **Rule of the actions of a call.** -/
theorem all_call [HeaderHash] (hR : Action.Plain R)
    (hversion : ∀ peer, R (.send peer S.versionMessage)) {call : SyncCall}
    (hblocks : ∀ peer hashes now, call = .message peer (.getBlocks hashes) now →
      S.isReady peer = true → R (.send peer (.blocks (S.asked hashes))))
    (hban : ∀ peer message now, call = .message peer message now → S.Offends peer message →
      ∀ reason, R (.disconnect peer reason)) :
    ∀ action ∈ (S.call call).2, R action := by
  cases call with
  | connect peer => exact List.forall_mem_singleton.mpr (hversion peer)
  | disconnect peer => exact fun _ h => absurd h List.not_mem_nil
  | message peer message now =>
    refine all_onMessage hR hversion (fun hashes he hready => ?_) (hban peer message now rfl) now
    exact hblocks peer hashes now (he ▸ rfl) hready
  | tick now => exact all_onTick hR hversion now
  | localBlock block => exact all_onLocalBlock hR block

end DagSync

end Chainname
