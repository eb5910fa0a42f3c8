import Chainname.Net.Handshake
import Chainname.Net.Requests

/-!
# Who is asked again

A tick takes the requests that have timed out, in hash order, and deals them in turn to the ready
peers, starting one peer further each time. One message asks each peer for its share, for at
most `maxInvEntries` hashes, and what is beyond is forgotten.

Nothing here looks at who was asked before. `retried_iff` says when every request that has timed
out goes to somebody else nevertheless: there are not too many, and at the place of each the
rotation does not come to its last owner. Two peers and one request are enough for it to go back
to where it was (`asked_again`).
-/

namespace Chainname.DagSync

/-- The `i`th request to have timed out is dealt to this peer, if any is ready. -/
def retryPeer (S : DagSync) (i : ℕ) : Option PeerId :=
  let ready := S.peersWith PeerState.isReady
  ready[((S.retryCursor + 1) % 2 ^ 64 % ready.length + i) % ready.length]?

/-- Every request that has timed out is made again in this tick, of a ready peer other than the
one that owed the block, and recorded. -/
def RetriesElsewhere (S : DagSync) (now : ℕ) : Prop :=
  ∀ p owner since, p ∈ S.stale now → S.requested.lookup p = some (owner, since) →
    ∃ peer hashes, .send peer (.getBlocks hashes) ∈ (S.onTick now).2 ∧ p ∈ hashes ∧
      S.isReady peer = true ∧ peer ≠ owner ∧
      (S.onTick now).1.requested.lookup p = some (peer, now)

/-! ### What a tick asks for -/

section Asks

variable {S : DagSync}

theorem nodup_stale (now : ℕ) : (S.stale now).Nodup := by
  unfold stale
  exact (Maps.nodup_keys_toList S.requested).sublist (List.filter_sublist.map Prod.fst)

theorem mem_stale {now : ℕ} {p : BlockHash} : p ∈ S.stale now ↔
    ∃ owner since, S.requested.lookup p = some (owner, since) ∧
      S.config.requestTimeoutMs < now - since := by
  unfold stale
  rw [List.mem_map]
  refine ⟨?_, ?_⟩
  · rintro ⟨⟨p, owner, since⟩, hmem, rfl⟩
    obtain ⟨hl, hlate⟩ := List.mem_filter.mp hmem
    exact ⟨owner, since, Maps.mem_toList.mp hl, of_decide_eq_true hlate⟩
  · rintro ⟨owner, since, hl, hlate⟩
    exact ⟨(p, owner, since),
      List.mem_filter.mpr ⟨Maps.mem_toList.mpr hl, decide_eq_true hlate⟩, rfl⟩

/-- Each peer is to be asked for hashes that nobody has been asked for. -/
structure Unasked (S : DagSync) (buckets : List (PeerId × List BlockHash)) : Prop where
  unrequested : ∀ entry ∈ buckets, ∀ b ∈ entry.2, b ∉ S.requested
  disjoint : buckets.Pairwise fun entry entry' => ∀ b ∈ entry.2, b ∉ entry'.2

variable {buckets : List (PeerId × List BlockHash)} {entry : PeerId × List BlockHash}

theorem Unasked.wanted_eq (h : S.Unasked (entry :: buckets)) :
    S.wanted entry.2 = entry.2.take maxInvEntries := by
  unfold wanted
  rw [List.filter_eq_self.mpr]
  exact fun b hb => decide_eq_true (h.unrequested entry List.mem_cons_self b hb)

theorem Unasked.tail (h : S.Unasked (entry :: buckets)) : S.Unasked buckets :=
  ⟨fun e he => h.unrequested e (List.mem_cons_of_mem _ he), (List.pairwise_cons.mp h.disjoint).2⟩

/-- When one peer has been asked, the hashes for the others are still unasked. -/
theorem Unasked.ask (h : S.Unasked (entry :: buckets)) (now : ℕ) :
    (S.requestFrom entry.1 entry.2 now).1.Unasked buckets := by
  refine ⟨fun e he b hb hreq => ?_, h.tail.disjoint⟩
  obtain hwanted | hreq := mem_requested_requestFrom.mp hreq
  · rw [h.wanted_eq] at hwanted
    exact (List.pairwise_cons.mp h.disjoint).1 e he b (List.mem_of_mem_take hwanted) hb
  · exact h.tail.unrequested e he b hb hreq

/-- **What the peers are asked for**: each for the first hashes of its own. -/
theorem Unasked.actions_eq (h : S.Unasked buckets) (now : ℕ) (actions : List Action) :
    (requestBuckets now buckets S actions).2 = actions ++
      (buckets.filter fun entry => entry.2 ≠ []).map fun entry =>
        .send entry.1 (.getBlocks (entry.2.take maxInvEntries)) := by
  -- bucket by bucket; what one bucket asks leaves the later ones unasked
  induction buckets generalizing S actions with
  | nil => exact (List.append_nil actions).symm
  | cons entry buckets ih =>
    obtain ⟨peer, hashes⟩ := entry
    unfold requestBuckets
    split
    · next hnil => rw [ih h.tail, List.filter_cons_of_neg (by simpa using hnil)]
    · next hne =>
      -- nothing of the bucket is requested yet, so the whole of it is
      have hsent : (S.requestFrom peer hashes now).2
          = [.send peer (.getBlocks (hashes.take maxInvEntries))] := by
        have hwanted := h.wanted_eq
        unfold wanted at hwanted
        unfold requestFrom
        dsimp only at hwanted ⊢
        rw [hwanted, if_neg]
        rw [List.take_eq_nil_iff, not_or]
        exact ⟨by decide, hne⟩
      dsimp only
      rw [ih (h.ask now), hsent, List.append_assoc, List.filter_cons_of_pos (by simpa using hne)]
      rfl

/-- What is asked of nobody stays requested as it was. -/
theorem lookup_requestBuckets_of_notMem (now : ℕ) (actions : List Action) {b : BlockHash}
    (hb : ∀ entry ∈ buckets, b ∉ entry.2) :
    (requestBuckets now buckets S actions).1.requested.lookup b = S.requested.lookup b := by
  -- a hash in no bucket is not written
  induction buckets generalizing S actions with
  | nil => rfl
  | cons entry buckets ih =>
    obtain ⟨peer, hashes⟩ := entry
    rw [List.forall_mem_cons] at hb
    unfold requestBuckets
    split
    · exact ih actions hb.2
    · dsimp only
      rw [ih _ hb.2, lookup_requestFrom, if_neg]
      exact fun hwanted => hb.1 (List.mem_of_mem_filter (List.mem_of_mem_take hwanted))

/-- **What the peers are asked for is recorded.** -/
theorem Unasked.lookup_eq (h : S.Unasked buckets) (now : ℕ) (actions : List Action)
    (hentry : entry ∈ buckets) {b : BlockHash} (hb : b ∈ entry.2.take maxInvEntries) :
    (requestBuckets now buckets S actions).1.requested.lookup b = some (entry.1, now) := by
  induction buckets generalizing S actions with
  | nil => exact absurd hentry List.not_mem_nil
  | cons first buckets ih =>
    unfold requestBuckets
    obtain rfl | hentry := List.mem_cons.mp hentry
    · -- asked here, and of nobody else
      have hlater : ∀ e ∈ buckets, b ∉ e.2 := fun e he =>
        (List.pairwise_cons.mp h.disjoint).1 e he b (List.mem_of_mem_take hb)
      rw [if_neg (List.ne_nil_of_mem (List.mem_of_mem_take hb))]
      dsimp only
      rw [lookup_requestBuckets_of_notMem now _ hlater, lookup_requestFrom, h.wanted_eq, if_pos hb]
    · split
      · exact ih h.tail actions hentry
      · exact ih (h.ask now) _ hentry

end Asks

/-! ### What a tick asks for -/

section Tick

variable {S : DagSync} {now : ℕ}

/-- The requests that have not timed out are left, and the rotation moves on. -/
def rotated (S : DagSync) (now : ℕ) : DagSync :=
  { S with
    requested := (S.stale now).foldl (fun requested hash => requested.erase hash) S.requested
    retryCursor := (S.retryCursor + 1) % 2 ^ 64 }

/-- The shares of the ready peers. -/
def shares (S : DagSync) (now : ℕ) : List (PeerId × List BlockHash) :=
  let ready := S.peersWith PeerState.isReady
  ready.zipIdx.map fun entry =>
    (entry.1, bucket (S.stale now) ((S.retryCursor + 1) % 2 ^ 64 % ready.length) ready.length
      entry.2)

theorem unasked_shares : (S.rotated now).Unasked (S.shares now) := by
  refine ⟨?_, ?_⟩
  · rintro entry hentry b hb hreq
    obtain ⟨place, -, rfl⟩ := List.mem_map.mp hentry
    exact (Maps.mem_foldl_erase.mp hreq).2 (RoundRobin.hand_subset hb)
  · unfold shares
    refine List.pairwise_map.mpr ?_
    have hplaces : ((S.peersWith PeerState.isReady).zipIdx.map Prod.snd).Nodup := by
      rw [List.zipIdx_map_snd]
      exact List.nodup_range'
    refine (List.pairwise_map.mp hplaces).imp fun {place place'} hne b hb hb' => hne ?_
    exact RoundRobin.hand_unique (nodup_stale now) hb hb'

/-- What a tick does: greetings and requests for tips apart, the stale requests are made again. -/
theorem onTick_cases (S : DagSync) (now : ℕ) :
    ((S.stale now = [] ∨ S.peersWith PeerState.isReady = []) ∧
      (S.onTick now).1.requested = (S.rotated now).requested ∧
      ∀ peer hashes, .send peer (.getBlocks hashes) ∉ (S.onTick now).2) ∨
    (S.stale now ≠ [] ∧ S.peersWith PeerState.isReady ≠ [] ∧
      (S.onTick now).1 = (requestBuckets now (S.shares now) (S.rotated now) []).1 ∧
      ∀ peer hashes, .send peer (.getBlocks hashes) ∈ (S.onTick now).2 ↔
        .send peer (.getBlocks hashes)
          ∈ (requestBuckets now (S.shares now) (S.rotated now) []).2) := by
  -- the other messages of a tick ask for no blocks
  have hother : ∀ (peers : List PeerId) (message : Message) (peer : PeerId)
      (hashes : List BlockHash), (∀ hs, message ≠ .getBlocks hs) →
      Action.send peer (.getBlocks hashes) ∉ peers.map fun p => Action.send p message := by
    rintro peers message peer hashes hne hmem
    obtain ⟨p, -, he⟩ := List.mem_map.mp hmem
    exact hne hashes (Action.send.inj he).2
  unfold onTick
  dsimp only
  split
  · next hnone =>
    refine Or.inl ⟨hnone, rfl, fun peer hashes hmem => ?_⟩
    rw [List.append_nil, List.mem_append] at hmem
    exact hmem.elim (hother _ _ _ _ nofun) (hother _ _ _ _ nofun)
  · next hsome =>
    rw [not_or] at hsome
    refine Or.inr ⟨hsome.1, hsome.2, rfl, fun peer hashes => ?_⟩
    rw [List.mem_append, List.mem_append]
    refine ⟨?_, ?_⟩
    · rintro ((hmem | hmem) | hmem)
      · exact absurd hmem (hother _ _ _ _ nofun)
      · exact hmem
      · exact absurd hmem (hother _ _ _ _ nofun)
    · exact fun hmem => Or.inl (Or.inr hmem)

/-- **The blocks a tick asks for**: each ready peer for the first hashes of its share. -/
theorem send_getBlocks_mem_onTick {peer : PeerId} {hashes : List BlockHash} :
    .send peer (.getBlocks hashes) ∈ (S.onTick now).2 ↔
      ∃ entry ∈ S.shares now, entry.2 ≠ [] ∧ peer = entry.1 ∧
        hashes = entry.2.take maxInvEntries := by
  obtain ⟨hnone, -, hsends⟩ | ⟨-, -, -, hsends⟩ := S.onTick_cases now
  · -- with nobody to ask, or nothing stale, every share is empty
    refine iff_of_false (hsends peer hashes) ?_
    rintro ⟨entry, hentry, hne, -⟩
    obtain ⟨place, hplace, rfl⟩ := List.mem_map.mp hentry
    obtain ⟨b, hb⟩ := List.exists_mem_of_ne_nil _ hne
    obtain hnil | hnil := hnone
    · exact List.not_mem_nil (hnil ▸ RoundRobin.hand_subset hb)
    · rw [hnil] at hplace
      exact List.not_mem_nil hplace
  · rw [hsends, unasked_shares.actions_eq, List.nil_append, List.mem_map]
    refine ⟨?_, ?_⟩
    · rintro ⟨entry, hmem, he⟩
      obtain ⟨hentry, hne⟩ := List.mem_filter.mp hmem
      obtain ⟨rfl, hmessage⟩ := Action.send.inj he
      exact ⟨entry, hentry, of_decide_eq_true hne, rfl, (Message.getBlocks.inj hmessage).symm⟩
    · rintro ⟨entry, hentry, hne, rfl, rfl⟩
      exact ⟨entry, List.mem_filter.mpr ⟨hentry, decide_eq_true hne⟩, rfl⟩

/-- **Who is asked for the `i`th request that has timed out.** -/
theorem mem_share_iff {i : ℕ} {p : BlockHash} (hi : (S.stale now)[i]? = some p) {peer : PeerId} :
    (∃ entry ∈ S.shares now, peer = entry.1 ∧ p ∈ entry.2.take maxInvEntries) ↔
      i < maxInvEntries * (S.peersWith PeerState.isReady).length ∧
        S.retryPeer i = some peer := by
  unfold shares retryPeer
  dsimp only
  generalize S.peersWith PeerState.isReady = ready
  refine ⟨?_, ?_⟩
  · rintro ⟨entry, hentry, rfl, hp⟩
    obtain ⟨⟨peer, j⟩, hplace, rfl⟩ := List.mem_map.mp hentry
    rw [List.mk_mem_zipIdx_iff_getElem?] at hplace
    obtain ⟨hj, -⟩ := List.getElem?_eq_some_iff.mp hplace
    -- the hash is in the share of one peer only
    have hplaces : j = ((S.retryCursor + 1) % 2 ^ 64 % ready.length + i) % ready.length :=
      RoundRobin.hand_unique (nodup_stale now) (List.mem_of_mem_take hp)
        (RoundRobin.mem_hand.mpr ⟨i, hi, rfl⟩)
    rw [hplaces] at hplace hp
    exact ⟨(RoundRobin.mem_take_hand_iff _ (nodup_stale now) (Nat.zero_lt_of_lt hj) hi).mp hp,
      hplace⟩
  · rintro ⟨hlt, hpeer⟩
    refine ⟨(peer, _), List.mem_map.mpr ⟨(peer, _), ?_, rfl⟩, rfl, mem_take_bucket hi hlt⟩
    exact List.mk_mem_zipIdx_iff_getElem?.mpr hpeer

/-- What a ready peer is asked for is recorded. -/
theorem lookup_onTick_of_mem_share {entry : PeerId × List BlockHash} (hentry : entry ∈ S.shares now)
    {p : BlockHash} (hp : p ∈ entry.2.take maxInvEntries) :
    (S.onTick now).1.requested.lookup p = some (entry.1, now) := by
  obtain ⟨-, -, hsends⟩ | ⟨-, -, hstate, -⟩ := S.onTick_cases now
  · exact absurd (send_getBlocks_mem_onTick.mpr ⟨entry, hentry,
      List.ne_nil_of_mem (List.mem_of_mem_take hp), rfl, rfl⟩) (hsends _ _)
  · rw [hstate]
    exact unasked_shares.lookup_eq now [] hentry hp

end Tick

/-! ### Peers and their ids -/

section Keyed

variable {S T : DagSync}

/-- Each peer is known under its own id. -/
def Keyed (S : DagSync) : Prop := ∀ q state, S.peers.lookup q = some state → state.id = q

theorem SamePeers.keyed (h : S.SamePeers PeerState.id T) (hS : S.Keyed) : T.Keyed := by
  intro q state hl
  have hq := h q
  rw [hl, Option.map_some, eq_comm, Option.map_eq_some_iff] at hq
  obtain ⟨state', hl', hid⟩ := hq
  exact hid.symm.trans (hS q state' hl')

/-- The peers that are asked are the ready ones. -/
theorem Keyed.mem_ready_iff (h : S.Keyed) {q : PeerId} :
    q ∈ S.peersWith PeerState.isReady ↔ S.isReady q = true := by
  unfold peersWith isReady
  rw [List.mem_map, Option.any_eq_true]
  refine ⟨?_, ?_⟩
  · rintro ⟨state, hmem, rfl⟩
    obtain ⟨hstate, hready⟩ := List.mem_filter.mp hmem
    obtain ⟨⟨q, state⟩, hentry, rfl⟩ := List.mem_map.mp hstate
    have hl := Maps.mem_toList.mp hentry
    exact ⟨state, h q state hl ▸ hl, hready⟩
  · rintro ⟨state, hl, hready⟩
    refine ⟨state, List.mem_filter.mpr ⟨?_, hready⟩, h q state hl⟩
    exact List.mem_map.mpr ⟨(q, state), Maps.mem_toList.mpr hl, rfl⟩

variable [HeaderHash]

theorem Keyed.step (h : S.Keyed) (call : SyncCall) : (S.step call).Keyed := by
  cases call with
  | connect peer =>
    intro q state hl
    change (S.peers.insert peer (.new peer)).lookup q = some state at hl
    obtain ⟨rfl, rfl⟩ | ⟨-, hl⟩ := Maps.lookup_insert_eq_some.mp hl
    · rfl
    · exact h q state hl
  | disconnect peer => exact fun q state hl => h q state (Maps.lookup_erase_eq_some.mp hl).2
  | message peer message now =>
    exact (samePeers_onMessage PeerState.steady_id peer now (Or.inr fun _ => rfl)).keyed h
  | tick now => exact (SamePeers.of_eq (peers_onTick now)).keyed h
  | localBlock block => exact (samePeers_onLocalBlock PeerState.steady_id block).keyed h

theorem keyed_after (dag : DagStore) (gate : Header → Except String Unit) (config : SyncConfig)
    (calls : List SyncCall) : (Runs.after step (new dag gate config) calls).Keyed :=
  (Runs.throughout_of_step (I := Keyed) (fun _ call h => h.step call)
    fun _ _ hl => absurd (Maps.mem_of_lookup hl) Finmap.notMem_empty).last

end Keyed

/-! ### The retries of a tick -/

section Retried

/-- The rotation gives every request that has timed out to a peer other than its owner, within
what one message to each can name. -/
def RotatesAway (S : DagSync) (now : ℕ) : Prop :=
  ∀ i p owner since, (S.stale now)[i]? = some p → S.requested.lookup p = some (owner, since) →
    i < maxInvEntries * (S.peersWith PeerState.isReady).length ∧ S.retryPeer i ≠ some owner

/-- Where each peer is known under its own id, the rotation decides. -/
theorem Keyed.retriesElsewhere_iff {S : DagSync} (hkeyed : S.Keyed) {now : ℕ} :
    S.RetriesElsewhere now ↔ S.RotatesAway now := by
  refine ⟨?_, ?_⟩
  · intro h i p owner since hi hl
    obtain ⟨peer, hashes, hsend, hp, -, hne, -⟩ := h p owner since (List.mem_of_getElem? hi) hl
    obtain ⟨entry, hentry, -, rfl, rfl⟩ := send_getBlocks_mem_onTick.mp hsend
    obtain ⟨hlt, hpeer⟩ := (mem_share_iff hi).mp ⟨entry, hentry, rfl, hp⟩
    refine ⟨hlt, fun howner => hne ?_⟩
    exact Option.some.inj (hpeer.symm.trans howner)
  · intro h p owner since hp hl
    obtain ⟨i, hi⟩ := List.getElem?_of_mem hp
    obtain ⟨hlt, hother⟩ := h i p owner since hi hl
    obtain ⟨peer, hpeer⟩ : ∃ peer, S.retryPeer i = some peer := by
      -- within the bound, there is a ready peer
      have hn : 0 < (S.peersWith PeerState.isReady).length :=
        Nat.pos_of_ne_zero fun hzero => by simp [hzero] at hlt
      exact ⟨_, List.getElem?_eq_getElem (Nat.mod_lt _ hn)⟩
    obtain ⟨entry, hentry, rfl, hmem⟩ := (mem_share_iff hi).mpr ⟨hlt, hpeer⟩
    refine ⟨entry.1, entry.2.take maxInvEntries, send_getBlocks_mem_onTick.mpr ⟨entry, hentry,
      List.ne_nil_of_mem (List.mem_of_mem_take hmem), rfl, rfl⟩, hmem, ?_, ?_, ?_⟩
    · exact hkeyed.mem_ready_iff.mp (List.mem_of_getElem? hpeer)
    · rintro rfl
      exact hother hpeer
    · exact lookup_onTick_of_mem_share hentry hmem

variable [HeaderHash]

/-- **A request that has timed out goes to someone else** exactly when the rotation says so, in
every state that a node can come to. -/
theorem retried_iff (dag : DagStore) (gate : Header → Except String Unit) (config : SyncConfig)
    (calls : List SyncCall) (now : ℕ) :
    (Runs.after step (new dag gate config) calls).RetriesElsewhere now ↔
      (Runs.after step (new dag gate config) calls).RotatesAway now :=
  (keyed_after dag gate config calls).retriesElsewhere_iff

end Retried

section Again

open Sample

/-- Two peers are ready, and the second announces a block that it never delivers. -/
def announcedOnly : List SyncCall :=
  [.connect 7, .message 7 .verack 0, .connect 8, .message 8 .verack 0,
    .message 8 (.invBlocks [hashOf 1]) 0]

/-- **The peer that did not answer is asked again**, though another one is ready. -/
theorem asked_again :
    (Runs.after step lone announcedOnly).peersWith PeerState.isReady = [7, 8] ∧
      ¬ (Runs.after step lone announcedOnly).RetriesElsewhere 5000 := by
  have hstale : (Runs.after step lone announcedOnly).stale 5000 = [hashOf 1] := by decide +kernel
  have howner : (Runs.after step lone announcedOnly).requested.lookup (hashOf 1) = some (8, 0) := by
    decide +kernel
  have hretry : (Runs.after step lone announcedOnly).retryPeer 0 = some 8 := by decide +kernel
  refine ⟨by decide +kernel, fun h => ?_⟩
  have hrotates : (Runs.after step lone announcedOnly).RotatesAway 5000 :=
    (keyed_after _ _ _ announcedOnly).retriesElsewhere_iff.mp h
  exact (hrotates 0 (hashOf 1) 8 0 (by rw [hstale]; rfl) howner).2 hretry

end Again

end Chainname.DagSync
