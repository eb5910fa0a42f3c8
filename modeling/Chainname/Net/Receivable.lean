import Chainname.Net.Codec
import Chainname.Net.Confluence

/-!
# What is sent can be received

A peer reads a frame of limited size and decodes it, and drops the connection when either
fails. What a node sends should therefore fit a frame and be decoded to what it was.

Most of what is sent is short by construction: announcements carry one hash, requests at most
as many as a message may. Two things are copied from the state as it is, the tips of the DAG
and the bodies of blocks, and `sends_receivable_iff` is the account for them.
-/

namespace Chainname

open Rlp (encode)

/-- Largest frame accepted, in bytes. -/
def maxFrameBytes : ℕ := 16 * 1024 * 1024

namespace Message

/-- The message fits a frame, and the frame is decoded to it. -/
def Receivable (message : Message) : Prop :=
  message.encodeToVec.length ≤ maxFrameBytes ∧
    decodeFromSlice message.encodeToVec = .ok message

/-! ### Sizes -/

section Sizes

theorem receivable_iff {message : Message} :
    message.Receivable ↔ message.encodeToVec.length ≤ maxFrameBytes ∧ message.WithinLimits := by
  refine and_congr_right fun hlen => decodeFromSlice_encodeToVec_iff (hlen.trans_lt ?_)
  unfold maxFrameBytes
  norm_num

/-- For a message that is short whenever it is within the limits, the limits are all that
matters. -/
theorem receivable_iff_withinLimits {message : Message}
    (h : message.WithinLimits → message.body.length ≤ 2 ^ 20) :
    message.Receivable ↔ message.WithinLimits := by
  refine receivable_iff.trans (and_iff_right_of_imp fun hlimits => ?_)
  calc message.encodeToVec.length
      = message.body.length + 1 := List.length_cons
    _ ≤ 2 ^ 20 + 1 := Nat.succ_le_succ (h hlimits)
    _ ≤ maxFrameBytes := by unfold maxFrameBytes; norm_num

theorem length_encode_hash_le (hash : BlockHash) : (encode hash).length ≤ 41 := by
  have hfixed : (Rlp.toFixed 32 hash.val).length = 32 :=
    Rlp.length_toFixed (hash.isLt.trans_eq (by norm_num))
  have hstring := Rlp.length_encodeString_le (s := Rlp.toFixed 32 hash.val) (by omega)
  rw [hfixed] at hstring
  exact hstring

theorem length_encode_hashes_le {hashes : List BlockHash} (h : hashes.length ≤ maxInvEntries) :
    (encode hashes).length ≤ 512 * 41 + 9 := by
  have hlen : hashes.length ≤ 512 := h
  have hlist := Rlp.length_encode_list_le (fun hash (_ : hash ∈ hashes) => length_encode_hash_le hash)
    (by omega)
  omega

theorem length_encode_version_le {payload : VersionPayload}
    (h : payload.tips.length ≤ maxInvEntries) : (encode payload).length ≤ 2 ^ 20 := by
  have hversion := Rlp.length_encode_uint32_le payload.version
  have hgenesis := length_encode_hash_le payload.genesis
  have htips := length_encode_hashes_le h
  -- the version's fields and their list header
  have hfields : payload.fields.flatten.length
      = (encode payload.version).length + ((encode payload.genesis).length
        + (encode payload.tips).length) := by
    unfold VersionPayload.fields
    simp only [List.flatten_cons, List.flatten_nil, List.length_append, List.length_nil, add_zero]
  have hheader := Rlp.length_header_le true
    (show payload.fields.flatten.length < 2 ^ 64 by omega)
  change (Rlp.encodeList payload.fields.flatten).length ≤ _
  unfold Rlp.encodeList
  rw [List.length_append]
  omega

/-- Every message but a batch of blocks is short. -/
theorem length_body_le {message : Message} (hblocks : ∀ batch, message ≠ .blocks batch)
    (h : message.WithinLimits) : message.body.length ≤ 2 ^ 20 := by
  have hhashes : ∀ {hashes : List BlockHash}, hashes.length ≤ maxInvEntries →
      (encode hashes).length ≤ 2 ^ 20 :=
    fun hlen => (length_encode_hashes_le hlen).trans (by norm_num)
  -- each kind is bounded by the field that grows
  cases message with
  | version v genesis hashes => exact length_encode_version_le h
  | verack => exact Nat.zero_le _
  | ping nonce => exact (Rlp.length_encode_uint64_le nonce).trans (by norm_num)
  | pong nonce => exact (Rlp.length_encode_uint64_le nonce).trans (by norm_num)
  | getTips => exact Nat.zero_le _
  | tips hashes => exact hhashes h
  | invBlocks hashes => exact hhashes h
  | getBlocks hashes => exact hhashes h
  | blocks batch => exact absurd rfl (hblocks batch)
  | invTxs hashes => exact hhashes h
  | getTxs hashes => exact hhashes h

/-- **A message other than blocks is received** exactly when it is within the limits. -/
theorem receivable_of_not_blocks {message : Message} (hblocks : ∀ batch, message ≠ .blocks batch) :
    message.Receivable ↔ message.WithinLimits :=
  receivable_iff_withinLimits (length_body_le hblocks)

/-- **A batch of blocks is received** exactly when it is within the limits and the encodings of
its blocks leave five bytes of a frame, for the discriminant and the header of the list. -/
theorem receivable_blocks_iff {batch : List BlockPayload} :
    (Message.blocks batch).Receivable ↔
      (batch.map fun block => (encode block).length).sum + 5 ≤ maxFrameBytes ∧
        (Message.blocks batch).WithinLimits := by
  refine receivable_iff.trans (and_congr_left fun _ => ?_)
  have hsum : (batch.map fun block => (encode block).length).sum = (batch.flatMap encode).length :=
    List.length_flatMap.symm
  have hframe : (Message.blocks batch).encodeToVec.length
      = (Rlp.header true (batch.flatMap encode).length).length
        + (batch.flatMap encode).length + 1 := by
    change (Rlp.encodeList (batch.flatMap encode)).length + 1 = _
    unfold Rlp.encodeList
    rw [List.length_append]
  rw [hframe, hsum]
  have hmax : maxFrameBytes = 256 ^ 3 := rfl
  rw [hmax]
  generalize (batch.flatMap encode).length = payload
  -- from 65536 bytes on the length takes three digits, below a frame it takes no more
  refine ⟨?_, ?_⟩
  · intro h
    by_cases hlong : 256 ^ 2 ≤ payload
    · have hheader := Rlp.lt_length_header true ((by norm_num : 56 ≤ 256 ^ 2).trans hlong) hlong
      omega
    · omega
  · intro h
    have hheader := Rlp.length_header_le_of_lt true (show payload < 256 ^ 3 by omega)
    omega

end Sizes

end Message

/-- What is sent, can be received. -/
def Action.Receivable : Action → Prop
  | .send _ message => message.Receivable
  | .disconnect _ _ => True

/-- All that is sent can be received. -/
def AllReceivable (actions : List Action) : Prop := ∀ action ∈ actions, action.Receivable

section AllReceivable

theorem allReceivable_nil : AllReceivable [] := fun _ h => absurd h List.not_mem_nil

@[simp] theorem allReceivable_append {actions actions' : List Action} :
    AllReceivable (actions ++ actions') ↔ AllReceivable actions ∧ AllReceivable actions' :=
  List.forall_mem_append

@[simp] theorem allReceivable_cons {action : Action} {actions : List Action} :
    AllReceivable (action :: actions) ↔ action.Receivable ∧ AllReceivable actions :=
  List.forall_mem_cons

theorem allReceivable_send {peer : PeerId} {message : Message} :
    AllReceivable [.send peer message] ↔ message.Receivable :=
  List.forall_mem_singleton

/-- The same message to some peers. -/
theorem allReceivable_map_send {peers : List PeerId} {message : Message} :
    AllReceivable (peers.map fun peer => .send peer message) ↔
      (peers ≠ [] → message.Receivable) := by
  refine ⟨?_, ?_⟩
  · intro h hne
    obtain ⟨peer, hpeer⟩ := List.exists_mem_of_ne_nil peers hne
    exact h _ (List.mem_map_of_mem hpeer)
  · intro h action hmem
    obtain ⟨peer, hpeer, rfl⟩ := List.mem_map.mp hmem
    exact h (List.ne_nil_of_mem hpeer)

end AllReceivable

namespace DagSync

variable {S : DagSync}

/-! ### What is short by construction -/

section Short

theorem allReceivable_announce (hash : BlockHash) (exclude : Option PeerId) :
    AllReceivable (S.announce hash exclude).2 := by
  unfold announce
  refine allReceivable_map_send.mpr fun _ => ?_
  exact (Message.receivable_of_not_blocks (by nofun)).mpr (by decide : 1 ≤ maxInvEntries)

/-- A request is cut to what one message may hold. -/
theorem allReceivable_requestFrom (peer : PeerId) (hashes : List BlockHash) (now : ℕ) :
    AllReceivable (S.requestFrom peer hashes now).2 := by
  unfold requestFrom
  dsimp only
  split
  · exact allReceivable_nil
  · refine allReceivable_send.mpr ((Message.receivable_of_not_blocks (by nofun)).mpr ?_)
    exact List.length_take_le _ _

theorem allReceivable_penalise (peer : PeerId) (what : Misbehaviour) (reason : String) :
    AllReceivable (S.penalise peer what reason).2 := by
  unfold DagSync.penalise
  split
  · exact allReceivable_nil
  · dsimp only
    split
    · exact List.forall_mem_singleton.mpr trivial
    · exact allReceivable_nil

theorem allReceivable_requestBuckets (now : ℕ) (buckets : List (PeerId × List BlockHash))
    {actions : List Action} (h : AllReceivable actions) :
    AllReceivable (requestBuckets now buckets S actions).2 := by
  induction buckets generalizing S actions with
  | nil => exact h
  | cons entry buckets ih =>
    unfold requestBuckets
    split
    · exact ih h
    · exact ih (allReceivable_append.mpr ⟨h, allReceivable_requestFrom _ _ now⟩)

theorem allReceivable_onVersion (peer : PeerId) (version : UInt32) (genesis : BlockHash)
    (tips : List BlockHash) (now : ℕ) :
    AllReceivable (S.onVersion peer version genesis tips now).2 := by
  unfold onVersion
  split
  · exact allReceivable_penalise peer _ _
  · split
    · exact allReceivable_penalise peer _ _
    · split
      · exact allReceivable_nil
      · have hverack : Message.verack.Receivable :=
          (Message.receivable_of_not_blocks (by nofun)).mpr trivial
        exact allReceivable_cons.mpr ⟨hverack, allReceivable_requestFrom peer _ now⟩

variable [HeaderHash]

theorem allReceivable_joined (child : BlockHash) (orphan : Orphan) :
    AllReceivable (S.joined child orphan).2 :=
  allReceivable_announce child (some orphan.sender)

theorem allReceivable_tryChildren (children : List BlockHash) {actions : List Action}
    (queue : List BlockHash) (h : AllReceivable actions) :
    AllReceivable (tryChildren children S actions queue).2.1 := by
  refine tryChildren_induct (P := fun _ _ actions _ => AllReceivable actions) ?_ ?_ ?_ ?_ children S
    actions queue h
  · exact fun _ _ _ _ _ _ h => h
  · exact fun _ _ _ _ _ _ _ _ h => h
  · intro child _ T _ _ orphan _ _ _ h
    exact allReceivable_append.mpr ⟨h, allReceivable_joined child orphan⟩
  · exact fun _ _ _ _ _ _ _ _ _ h => h

theorem allReceivable_resolveOrphansOf (hash : BlockHash) :
    AllReceivable (S.resolveOrphansOf hash).2 :=
  resolveOrphansOf_induct (P := fun _ _ actions => AllReceivable actions) (fun _ _ _ _ _ h => h)
    (fun _ queue _ _ children _ h =>
      allReceivable_tryChildren (Maps.sortedKeys children) queue h)
    S hash allReceivable_nil

theorem allReceivable_admitBlock (header : Header) (sender : PeerId) (now : ℕ) :
    AllReceivable (S.admitBlock header sender now).2 := by
  obtain ⟨hash, -, he⟩ | ⟨block, parent, -, he⟩ | ⟨e, -, -, he⟩ := S.admit_cases header sender now
  · rw [he]
    exact allReceivable_append.mpr
      ⟨allReceivable_announce header.hash (some sender), allReceivable_resolveOrphansOf header.hash⟩
  · rw [he]
    exact allReceivable_requestFrom sender _ now
  · rw [he]
    exact allReceivable_nil

theorem allReceivable_onBlocks (peer : PeerId) (blocks : List BlockPayload) (now : ℕ) :
    AllReceivable (S.onBlocks peer blocks now).2 := by
  refine deliver_induct _ _ (P := fun _ _ actions => AllReceivable actions) ?_ ?_ ?_ ?_ blocks S []
    allReceivable_nil
  · exact fun _ _ _ _ _ h => h
  · intro block _ T _ _ _ _ h
    exact allReceivable_append.mpr ⟨h, allReceivable_penalise peer _ _⟩
  · intro block _ T _ _ _ _ h
    exact allReceivable_append.mpr ⟨h, allReceivable_penalise peer _ _⟩
  · intro block _ T _ _ _ h
    exact allReceivable_append.mpr ⟨h, allReceivable_admitBlock block.header peer now⟩

theorem allReceivable_onLocalBlock (block : BlockPayload) :
    AllReceivable (S.onLocalBlock block).2 := by
  obtain ⟨hash, -, he⟩ | ⟨e, -, he⟩ := S.onLocalBlock_cases block
  · rw [he]
    exact allReceivable_append.mpr
      ⟨allReceivable_announce block.hash none, allReceivable_resolveOrphansOf block.hash⟩
  · rw [he]
    exact allReceivable_nil

end Short

/-! ### What is copied from the state -/

/-- The tips of the DAG fit one message. -/
def TipsFit (S : DagSync) : Prop := S.dag.tips.card ≤ maxInvEntries

/-- The blocks to answer a request with. -/
def asked (S : DagSync) (hashes : List BlockHash) : List BlockPayload :=
  (hashes.take maxBlockBatch).filterMap fun hash =>
    (S.dag.headers.lookup hash).map fun header => ⟨header, (S.bodies.lookup hash).getD []⟩

/-- Of the blocks asked for, those the node holds have bodies within the limit, and together
they leave room for five bytes in a frame. -/
def BlocksFit (S : DagSync) (hashes : List BlockHash) : Prop :=
  (∀ block ∈ S.asked hashes, block.transactions.length ≤ maxTxsPerBlock) ∧
    ((S.asked hashes).map fun block => (encode block).length).sum + 5 ≤ maxFrameBytes

/-- The calls that send the tips: a peer connects, is asked to shake hands again, or asks for
them. -/
def SendsTips (S : DagSync) : SyncCall → Prop
  | .connect _ => True
  | .tick _ => ∃ peer state, S.peers.lookup peer = some state ∧ state.isReady = false
  | .message peer message _ => peer ∈ S.peers ∧
      (S.isReady peer = false ∧ message.isHandshake = false ∨ message = .getTips)
  | _ => False

/-- What a call copies from the state fits what a peer can receive. -/
structure Fits (S : DagSync) (call : SyncCall) : Prop where
  tips : S.SendsTips call → S.TipsFit
  blocks : ∀ {peer hashes now}, call = .message peer (.getBlocks hashes) now →
    S.isReady peer = true → S.BlocksFit hashes

section Copied

theorem length_sortedTips (D : DagStore) : D.sortedTips.length = D.tips.card := by
  rw [← List.toFinset_card_of_nodup (DagStore.nodup_sortedTips D)]
  congr 1
  ext b
  rw [List.mem_toFinset, DagStore.mem_sortedTips]

theorem receivable_versionMessage : S.versionMessage.Receivable ↔ S.TipsFit := by
  unfold TipsFit
  rw [← length_sortedTips]
  exact Message.receivable_of_not_blocks (by nofun)

theorem receivable_tips : (Message.tips S.dag.sortedTips).Receivable ↔ S.TipsFit := by
  unfold TipsFit
  rw [← length_sortedTips]
  exact Message.receivable_of_not_blocks (by nofun)

theorem peersWith_ne_nil {test : PeerState → Bool} :
    S.peersWith test ≠ [] ↔ ∃ peer state, S.peers.lookup peer = some state ∧ test state = true := by
  unfold peersWith
  rw [ne_eq, List.map_eq_nil_iff, List.filter_eq_nil_iff]
  refine ⟨?_, ?_⟩
  · intro h
    push Not at h
    obtain ⟨state, hmem, htest⟩ := h
    obtain ⟨⟨peer, state⟩, hentry, rfl⟩ := List.mem_map.mp hmem
    exact ⟨peer, state, Maps.mem_toList.mp hentry, htest⟩
  · rintro ⟨peer, state, hl, htest⟩ hnone
    refine hnone state (List.mem_map.mpr ⟨(peer, state), Maps.mem_toList.mpr hl, rfl⟩) htest

/-- A tick sends our tips to the peers that are not ready, and short messages besides. -/
theorem allReceivable_onTick (now : ℕ) :
    AllReceivable (S.onTick now).2 ↔ (S.SendsTips (.tick now) → S.TipsFit) := by
  -- the tips go to the peers that are not ready
  have hunready : S.SendsTips (.tick now) ↔ (S.peersWith fun p => !p.isReady) ≠ [] := by
    rw [peersWith_ne_nil]
    simp [SendsTips]
  have hgetTips : Message.getTips.Receivable :=
    (Message.receivable_of_not_blocks (by nofun)).mpr trivial
  unfold onTick
  dsimp only
  rw [allReceivable_append, allReceivable_append, hunready, ← receivable_versionMessage]
  refine (and_iff_left (allReceivable_map_send.mpr fun _ => hgetTips)).trans ?_
  refine (and_iff_left ?_).trans allReceivable_map_send
  -- what the retries send is bounded by `maxInvEntries`
  split
  · exact allReceivable_nil
  · exact allReceivable_requestBuckets now _ allReceivable_nil

/-- A request for blocks is answered with what the node holds of them. -/
theorem allReceivable_onGetBlocks [HeaderHash] (peer : PeerId) (hashes : List BlockHash) :
    AllReceivable (S.onGetBlocks peer hashes).2 ↔ S.BlocksFit hashes := by
  have hbatch : (S.asked hashes).length ≤ maxBlockBatch :=
    (List.length_filterMap_le _ _).trans (List.length_take_le _ _)
  have hreply : (Message.blocks (S.asked hashes)).Receivable ↔ S.BlocksFit hashes := by
    refine Message.receivable_blocks_iff.trans (and_comm.trans (and_congr_left fun _ => ?_))
    exact and_iff_right hbatch
  have hcall : (S.onGetBlocks peer hashes).2
      = if S.asked hashes = [] then [] else [.send peer (.blocks (S.asked hashes))] := by
    unfold onGetBlocks asked
    dsimp only
    split
    · rfl
    · rfl
  rw [hcall]
  split
  · next hnil =>
    -- nothing is sent, and nothing has to fit
    refine iff_of_true allReceivable_nil ⟨?_, ?_⟩
    · rw [hnil]
      exact fun block hmem => absurd hmem List.not_mem_nil
    · rw [hnil, List.map_nil, List.sum_nil]
      decide
  · exact allReceivable_send.trans hreply

variable [HeaderHash]

/-- What a message makes a node send. -/
theorem allReceivable_onMessage (peer : PeerId) (message : Message) (now : ℕ) :
    AllReceivable (S.onMessage peer message now).2 ↔ S.Fits (.message peer message now) := by
  unfold onMessage
  split
  · next hpeer =>
    refine iff_of_true (List.forall_mem_singleton.mpr trivial) ⟨fun h => absurd h.1 hpeer, ?_⟩
    rintro _ _ _ ⟨⟩ hready
    exact absurd (mem_peers_of_isReady hready) hpeer
  · next hpeer =>
    rw [not_not] at hpeer
    split
    · next hunready =>
      -- answered with our opening message
      simp only [Bool.and_eq_true, Bool.not_eq_true'] at hunready
      refine allReceivable_send.trans (receivable_versionMessage.trans ⟨fun h => ⟨fun _ => h, ?_⟩, ?_⟩)
      · rintro _ _ _ ⟨⟩ hready
        exact absurd hready (Bool.eq_false_iff.mp hunready.1)
      · exact fun h => h.tips ⟨hpeer, Or.inl hunready⟩
    · next hready =>
      rw [Bool.and_eq_true, Bool.not_eq_true', Bool.not_eq_true', not_and] at hready
      -- the peer is ready, or shakes hands: only two messages have the state copied
      have hquiet : message ≠ .getTips → (∀ hashes, message ≠ .getBlocks hashes) →
          S.Fits (.message peer message now) := by
        intro htips hblocks
        refine ⟨?_, ?_⟩
        · rintro ⟨-, ⟨hnew, hshake⟩ | rfl⟩
          · exact absurd hshake (hready hnew)
          · exact absurd rfl htips
        · rintro _ hashes _ ⟨⟩
          exact absurd rfl (hblocks hashes)
      cases message with
      | version v genesis hashes =>
        exact iff_of_true (allReceivable_onVersion peer v genesis hashes now)
          (hquiet nofun nofun)
      | verack => exact iff_of_true allReceivable_nil (hquiet nofun nofun)
      | ping nonce =>
        have hpong : (Message.pong nonce).Receivable :=
          (Message.receivable_of_not_blocks (by nofun)).mpr trivial
        exact iff_of_true (allReceivable_send.mpr hpong) (hquiet nofun nofun)
      | pong nonce => exact iff_of_true allReceivable_nil (hquiet nofun nofun)
      | getTips =>
        refine allReceivable_send.trans (receivable_tips.trans ⟨fun h => ⟨fun _ => h, nofun⟩, ?_⟩)
        exact fun h => h.tips ⟨hpeer, Or.inr rfl⟩
      | tips hashes => exact iff_of_true (allReceivable_requestFrom _ _ _) (hquiet nofun nofun)
      | invBlocks hashes => exact iff_of_true (allReceivable_requestFrom _ _ _) (hquiet nofun nofun)
      | getBlocks hashes =>
        have hpeerReady : S.isReady peer = true :=
          Bool.not_eq_false _ ▸ fun hnew => hready hnew rfl
        refine (allReceivable_onGetBlocks peer hashes).trans ⟨fun h => ⟨?_, ?_⟩, fun h => h.blocks rfl hpeerReady⟩
        · rintro ⟨-, ⟨hnew, -⟩ | he⟩
          · exact absurd hnew (by simp [hpeerReady])
          · cases he
        · rintro _ _ _ ⟨⟩ -
          exact h
      | blocks blocks =>
        exact iff_of_true (allReceivable_onBlocks peer blocks now) (hquiet nofun nofun)
      | invTxs hashes => exact iff_of_true allReceivable_nil (hquiet nofun nofun)
      | getTxs hashes => exact iff_of_true allReceivable_nil (hquiet nofun nofun)

/-- **What is sent can be received** exactly when what is copied from the state fits. -/
theorem allReceivable_call (call : SyncCall) : AllReceivable (S.call call).2 ↔ S.Fits call := by
  cases call with
  | connect peer =>
    refine allReceivable_send.trans (receivable_versionMessage.trans ⟨fun h => ⟨fun _ => h, nofun⟩, ?_⟩)
    exact fun h => h.tips trivial
  | disconnect peer => exact iff_of_true allReceivable_nil ⟨nofun, nofun⟩
  | message peer message now => exact allReceivable_onMessage peer message now
  | tick now => exact (allReceivable_onTick now).trans ⟨fun h => ⟨h, nofun⟩, Fits.tips⟩
  | localBlock block => exact iff_of_true (allReceivable_onLocalBlock block) ⟨nofun, nofun⟩

/-- **All that a node sends can be received**, whatever happens to it, exactly when the DAG has
at most 512 tips whenever they are sent and the blocks a ready peer asks for fit a frame. -/
theorem sends_receivable_iff (dag : DagStore) (gate : Header → Except String Unit)
    (config : SyncConfig) (calls : List SyncCall) :
    Runs.Each step (fun S call => AllReceivable (S.call call).2) (new dag gate config) calls ↔
      Runs.Each step Fits (new dag gate config) calls :=
  Runs.each_congr fun _ call => allReceivable_call call

end Copied

/-! ### Many tips -/

section Flood

open Sample

/-- Blocks on genesis, side by side. -/
def siblings (n : ℕ) : List Header := (List.range n).map fun i => block (i + 1) [0] 0x2000ffff

theorem mem_siblings {n : ℕ} {header : Header} :
    header ∈ siblings n ↔ ∃ i < n, block (i + 1) [0] 0x2000ffff = header := by
  simp [siblings]

theorem family_siblings {n : ℕ} (hn : n < 2 ^ 64 - 1) (gate : Header → Except String Unit)
    (hgate : ∀ header, gate header = .ok ()) :
    Family root 2 10 gate (siblings n).toFinset where
  -- sibling `i` is block `i + 1` on the root
  hash_inj hmem hmem' he := by
    obtain ⟨i, hi, rfl⟩ := mem_siblings.mp (List.mem_toFinset.mp hmem)
    obtain ⟨j, hj, rfl⟩ := mem_siblings.mp (List.mem_toFinset.mp hmem')
    rw [block_hash (by omega), block_hash (by omega)] at he
    rw [hashOf_injOn (by omega) (by omega) he]
  ne_genesis hmem he := by
    obtain ⟨i, hi, rfl⟩ := mem_siblings.mp (List.mem_toFinset.mp hmem)
    have hroot : root.hash = hashOf 0 := block_hash (by norm_num) _ _
    rw [block_hash (by omega), hroot] at he
    exact absurd (hashOf_injOn (by omega) (by norm_num) he) (Nat.succ_ne_zero i)
  parents_ne_nil hmem := by
    obtain ⟨i, -, rfl⟩ := mem_siblings.mp (List.mem_toFinset.mp hmem)
    exact List.cons_ne_nil _ _
  closed hmem hp := by
    obtain ⟨i, -, rfl⟩ := mem_siblings.mp (List.mem_toFinset.mp hmem)
    exact Or.inl (List.mem_singleton.mp hp)
  acyclic := by
    refine ⟨fun b => b.val, fun header hmem p hp => ?_⟩
    obtain ⟨i, hi, rfl⟩ := mem_siblings.mp (List.mem_toFinset.mp hmem)
    obtain rfl := List.mem_singleton.mp hp
    rw [block_hash (by omega)]
    simp only [hashOf, Fin.val_ofNat]
    omega
  gate_ok _ := hgate _
  within headers _ h hmem := by
    obtain ⟨i, -, rfl⟩ := mem_siblings.mp (List.mem_toFinset.mp hmem)
    exact ((DagStore.new_valid root 2 10).addBlocks headers).addBlock_single_ne_too_large rfl _ _

/-- A peer delivers `n` blocks on genesis, one at a time. -/
def flood (n : ℕ) : List SyncCall := deliverAll ((siblings n).map fun header => [header])

/-- Each of them is a tip. -/
theorem le_card_tips_flood {n : ℕ} (hn : n ≤ 4096) :
    n ≤ (Runs.after step lone (flood n)).dag.tips.card := by
  have hF := family_siblings (by omega : n < 2 ^ 64 - 1) (fun _ => .ok ()) fun _ => rfl
  have hlen : (siblings n).length = n := by simp [siblings]
  have hroom : (siblings n).toFinset.card ≤ 4096 :=
    (List.toFinset_card_le _).trans (hlen.trans_le hn)
  have hdelivers : Delivers (siblings n).toFinset lone (flood n) := by
    refine ⟨fun block hlocal => ?_, fun header => ?_⟩
    · simp [flood, deliverAll] at hlocal
    · unfold flood
      rw [deliveries_deliverAll]
      simp
  have hpool := hdelivers.settled hF hroom
  have hlookup := hpool.lookup_iff hF fun header hmem => ⟨header, hmem, rfl⟩
  -- every sibling is a tip: its hash is stored and no stored block builds on it
  have hsub : (Finset.range n).image (fun i => hashOf (i + 1))
      ⊆ (Runs.after step lone (flood n)).dag.tips := by
    intro b hb
    obtain ⟨i, hi, rfl⟩ := Finset.mem_image.mp hb
    rw [Finset.mem_range] at hi
    have hsibling : block (i + 1) [0] 0x2000ffff ∈ (siblings n).toFinset :=
      List.mem_toFinset.mpr (mem_siblings.mpr ⟨i, hi, rfl⟩)
    have hhash := block_hash (by omega : i + 1 < 2 ^ 64) [0] 0x2000ffff
    refine hpool.built.valid.mem_tips.mpr ⟨?_, ?_⟩
    · exact Maps.mem_of_lookup ((hlookup _ _).mpr (Or.inr ⟨hsibling, hhash⟩))
    · -- the parent of a stored block is genesis, if it has one
      rintro c ⟨header, hl, -, hparent⟩
      obtain ⟨-, rfl⟩ | ⟨hmem, -⟩ := (hlookup _ _).mp hl
      · exact List.not_mem_nil hparent
      · obtain ⟨j, -, rfl⟩ := mem_siblings.mp (List.mem_toFinset.mp hmem)
        have he := hashOf_injOn (by omega) (by norm_num) (List.mem_singleton.mp hparent)
        exact Nat.succ_ne_zero i he
  -- the hashes are distinct, so there are `n` of them
  calc n = ((Finset.range n).image fun i => hashOf (i + 1)).card := by
        rw [Finset.card_image_of_injOn, Finset.card_range]
        intro i hi j hj he
        rw [Finset.coe_range, Set.mem_Iio] at hi hj
        exact Nat.succ_injective (hashOf_injOn (by omega) (by omega) he)
    _ ≤ _ := Finset.card_le_card hsub

/-- **A peer makes a node send what nobody can decode**: it delivers the blocks and asks for
the tips. -/
theorem not_allReceivable_flood {n : ℕ} (hlong : maxInvEntries < n) (hn : n ≤ 4096) :
    ¬ Runs.Each step (fun S call => AllReceivable (S.call call).2) lone
      (flood n ++ [.message 7 .getTips 0]) := by
  intro h
  obtain ⟨-, hlast, -⟩ := Runs.each_append.mp h
  have hmem := mem_peers_of_isReady (isReady_deliverAll ((siblings n).map fun header => [header]))
  have hfits : n ≤ maxInvEntries :=
    (le_card_tips_flood hn).trans (((allReceivable_call _).mp hlast).tips ⟨hmem, Or.inr rfl⟩)
  exact absurd hlong (not_lt.mpr hfits)

/-- Five hundred and thirteen blocks on genesis are too many. -/
theorem flood_tips_too_many :
    ¬ Runs.Each step (fun S call => AllReceivable (S.call call).2) lone
      (flood 513 ++ [.message 7 .getTips 0]) :=
  not_allReceivable_flood (by decide) (by norm_num)

end Flood

end DagSync

end Chainname
