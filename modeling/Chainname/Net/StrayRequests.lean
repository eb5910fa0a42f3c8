import Chainname.Net.Retries

/-!
# Requests that nobody waits for

A hash is requested because a peer has named it, or because an orphan lacks it as a parent. The
requests do not remember why, and a tick renews those that have timed out. `Explained` says that
each has its reason still: the hash was named, or an orphan is held that waits for it.

The reason is lost when the last orphan that waits for a hash is evicted, and when the block
itself is mined here. `LeavesNoStray` says that a call does neither, and
`requests_accounted` that every request is accounted for then. Otherwise the request stays, and
every tick asks for a block that nobody waits for (`stray_after_eviction`).
-/

namespace Chainname

/-- The hashes that a message of a peer names. -/
def SyncCall.named : SyncCall → List BlockHash
  | .message _ (.version _ _ tips) _ => tips
  | .message _ (.tips hashes) _ => hashes
  | .message _ (.invBlocks hashes) _ => hashes
  | _ => []

namespace DagSync

/-- The hashes that have been named. -/
def named (calls : List SyncCall) : List BlockHash := calls.flatMap SyncCall.named

/-- A parent that a held orphan lacks. -/
def Awaited (S : DagSync) (p : BlockHash) : Prop :=
  ∃ b orphan, S.orphans.lookup b = some orphan ∧ p ∈ orphan.header.parents ∧ p ∉ S.dag.headers

/-- The parents of the orphans that are held. -/
def orphanParents (S : DagSync) : List BlockHash :=
  (Maps.toList S.orphans).flatMap fun entry => entry.2.header.parents

/-- Every request is accounted for: its hash was named or a held orphan lacks it, those that were
not named are no more than the parents of the held orphans, and no tick asks for anything else. -/
structure Accounted (session : DagSync × List SyncCall) : Prop where
  explained : ∀ p ∈ session.1.requested, p ∈ named session.2 ∨ session.1.Awaited p
  bounded : (session.1.requested.keys \ (named session.2).toFinset).card
    ≤ session.1.orphanParents.length
  renewed : ∀ now peer hashes, .send peer (.getBlocks hashes) ∈ (session.1.onTick now).2 →
    ∀ p ∈ hashes, p ∈ named session.2 ∨ session.1.Awaited p

section Conditions

variable [HeaderHash]

/-- When the header is held as an orphan, no orphan makes room for it that is the last to wait
for a hash that is requested and not known to anybody else. -/
def EvictsNoLastWaiter (S : DagSync) (known : List BlockHash) (header : Header) : Prop :=
  (∃ p ∈ header.parents, p ∉ S.dag.headers) →
    ∀ b orphan, S.orphans.lookup b = some orphan → b ∉ (evict S.orphanOrder S).orphans →
      ∀ p ∈ orphan.header.parents, p ∈ S.requested → p ∉ S.dag.headers →
        p ∈ known ∨ p ∈ header.parents ∨ ∃ c other,
          (evict S.orphanOrder S).orphans.lookup c = some other ∧ p ∈ other.header.parents

/-- The call leaves no request behind that nobody has a reason for. -/
def LeavesNoStray (session : DagSync × List SyncCall) : SyncCall → Prop
  | .message peer (.blocks blocks) now => session.1.isReady peer = true →
    ∀ T block, session.1.Takes peer blocks now T block →
      (T.taken peer block).EvictsNoLastWaiter (named session.2) block.header
  | .localBlock block => (∃ hash, (session.1.dag.addBlock block.header).2 = .ok hash) →
    block.hash ∈ session.1.requested → block.hash ∈ named session.2
  | _ => True

end Conditions

/-! ### What follows from a reason -/

section Accounts

variable {S : DagSync} {known : List BlockHash}

theorem Awaited.mem_orphanParents {p : BlockHash} (h : S.Awaited p) : p ∈ S.orphanParents := by
  obtain ⟨b, orphan, hl, hp, -⟩ := h
  exact List.mem_flatMap.mpr ⟨(b, orphan), Maps.mem_toList.mpr hl, hp⟩

/-- The requests made for orphans are no more than the parents of the orphans. -/
theorem card_requested_sdiff_le (h : ∀ p ∈ S.requested, p ∈ known ∨ S.Awaited p) :
    (S.requested.keys \ known.toFinset).card ≤ S.orphanParents.length := by
  have hsub : S.requested.keys \ known.toFinset ⊆ S.orphanParents.toFinset := by
    intro p hp
    obtain ⟨hreq, hunnamed⟩ := Finset.mem_sdiff.mp hp
    rw [List.mem_toFinset] at hunnamed ⊢
    exact ((h p (Finmap.mem_keys.mp hreq)).resolve_left hunnamed).mem_orphanParents
  exact (Finset.card_le_card hsub).trans (List.toFinset_card_le _)

/-- A tick asks again for what is requested. -/
theorem mem_requested_of_onTick {now : ℕ} {peer : PeerId} {hashes : List BlockHash}
    (h : .send peer (.getBlocks hashes) ∈ (S.onTick now).2) {p : BlockHash} (hp : p ∈ hashes) :
    p ∈ S.requested := by
  obtain ⟨entry, hentry, -, -, rfl⟩ := send_getBlocks_mem_onTick.mp h
  obtain ⟨place, -, rfl⟩ := List.mem_map.mp hentry
  obtain ⟨owner, since, hl, -⟩ := mem_stale.mp (RoundRobin.hand_subset (List.mem_of_mem_take hp))
  exact Maps.mem_of_lookup hl

theorem accounted_of_explained {session : DagSync × List SyncCall}
    (h : ∀ p ∈ session.1.requested, p ∈ named session.2 ∨ session.1.Awaited p) :
    Accounted session :=
  ⟨h, card_requested_sdiff_le h, fun _ _ _ hsend p hp => h p (mem_requested_of_onTick hsend hp)⟩

end Accounts

/-! ### What is requested -/

section Requested

variable {S : DagSync}

/-- What a request for some hashes adds. -/
theorem mem_requestFrom_subset {peer : PeerId} {hashes : List BlockHash} {now : ℕ}
    {p : BlockHash} (h : p ∈ (S.requestFrom peer hashes now).1.requested) :
    p ∈ S.requested ∨ p ∈ hashes := by
  obtain hwanted | hreq := mem_requested_requestFrom.mp h
  · exact Or.inr (List.mem_of_mem_filter (List.mem_of_mem_take hwanted))
  · exact Or.inl hreq

theorem mem_requestUnknown_subset {peer : PeerId} {hashes : List BlockHash} {now : ℕ}
    {p : BlockHash} (h : p ∈ (S.requestUnknown peer hashes now).1.requested) :
    p ∈ S.requested ∨ p ∈ hashes :=
  (mem_requestFrom_subset h).imp_right List.mem_of_mem_filter

theorem mem_requestBuckets_subset {now : ℕ} {buckets : List (PeerId × List BlockHash)}
    {actions : List Action} {p : BlockHash}
    (h : p ∈ (requestBuckets now buckets S actions).1.requested) :
    p ∈ S.requested ∨ ∃ entry ∈ buckets, p ∈ entry.2 := by
  by_contra hno
  rw [not_or, not_exists] at hno
  have hnone : ∀ entry ∈ buckets, p ∉ entry.2 := fun entry he hp => hno.2 entry ⟨he, hp⟩
  rw [← Finmap.lookup_isSome, lookup_requestBuckets_of_notMem now actions hnone,
    Finmap.lookup_isSome] at h
  exact hno.1 h

/-- A tick requests nothing that was not requested. -/
theorem mem_requested_onTick {now : ℕ} {p : BlockHash} (h : p ∈ (S.onTick now).1.requested) :
    p ∈ S.requested := by
  have hrotated : ∀ {p}, p ∈ (S.rotated now).requested → p ∈ S.requested :=
    fun hp => (Maps.mem_foldl_erase.mp hp).1
  obtain ⟨-, hstate, -⟩ | ⟨-, -, hstate, -⟩ := S.onTick_cases now
  · exact hrotated (hstate ▸ h)
  · rw [hstate] at h
    obtain hp | ⟨entry, hentry, hp⟩ := mem_requestBuckets_subset h
    · exact hrotated hp
    · obtain ⟨place, -, rfl⟩ := List.mem_map.mp hentry
      -- only what has timed out is dealt
      obtain ⟨owner, since, hl, -⟩ := mem_stale.mp (RoundRobin.hand_subset hp)
      exact Maps.mem_of_lookup hl

end Requested

/-! ### Calls that bring no block -/

section Explained

variable [HeaderHash]

/-- Every request has a reason, and a hash that is requested for an orphan is not held. -/
structure Explained (known : List BlockHash) (S : DagSync) : Prop where
  valid : S.dag.Valid
  orphan_key : ∀ {b orphan}, S.orphans.lookup b = some orphan → orphan.header.hash = b
  explained : ∀ {p}, p ∈ S.requested → p ∈ known ∨ S.Awaited p
  /-- But for a block that names itself as a parent. -/
  apart : ∀ {p orphan}, p ∈ S.requested → S.orphans.lookup p = some orphan →
    p ∈ known ∨ p ∈ orphan.header.parents

variable {S T : DagSync} {known known' : List BlockHash}

theorem Explained.mono (h : Explained known S) (hsub : known ⊆ known') : Explained known' S :=
  ⟨h.valid, h.orphan_key, fun hp => (h.explained hp).imp_left fun hk => hsub hk,
    fun hp hl => (h.apart hp hl).imp_left fun hk => hsub hk⟩

/-- Orphans leave when they lack no parent, and no block joins that is requested for an orphan. -/
theorem Explained.move (h : Explained known S) (hvalid : T.dag.Valid)
    (hdag : ∀ {p}, p ∈ S.requested → p ∈ T.dag.headers → p ∈ S.dag.headers ∨ p ∈ known)
    (horphans : ∀ {b orphan}, T.orphans.lookup b = some orphan →
      S.orphans.lookup b = some orphan)
    (hleave : ∀ {b orphan}, S.orphans.lookup b = some orphan →
      T.orphans.lookup b = some orphan ∨ ∀ p ∈ orphan.header.parents, p ∈ S.dag.headers)
    (hreq : ∀ {p}, p ∈ T.requested → p ∈ S.requested ∨ p ∈ known) : Explained known T := by
  refine ⟨hvalid, fun hl => h.orphan_key (horphans hl), fun {p} hp => ?_, fun {p orphan} hp hl => ?_⟩
  · obtain hp | hknown := hreq hp
    · obtain hknown | ⟨b, orphan, hl, hpar, hout⟩ := h.explained hp
      · exact Or.inl hknown
      · -- the orphan that waits for it is still there
        obtain hl | hcomplete := hleave hl
        · by_cases hin : p ∈ T.dag.headers
          · exact Or.inl ((hdag hp hin).resolve_left hout)
          · exact Or.inr ⟨b, orphan, hl, hpar, hin⟩
        · exact absurd (hcomplete p hpar) hout
    · exact Or.inl hknown
  · -- a request that lies in the pool lay there before
    obtain hp | hknown := hreq hp
    · exact h.apart hp (horphans hl)
    · exact Or.inl hknown

/-- Blocks and orphans stay as they are. -/
theorem Explained.samePool (h : Explained known S) (hT : S.SamePool T)
    (hreq : ∀ {p}, p ∈ T.requested → p ∈ S.requested ∨ p ∈ known) : Explained known T :=
  h.move (hT.dag ▸ h.valid) (fun _ hin => Or.inl (hT.dag ▸ hin)) (fun hl => hT.orphans ▸ hl)
    (fun hl => Or.inl (hT.orphans.symm ▸ hl)) hreq

/-- A requested hash that is held once a header has been tried was held before, or named. -/
theorem mem_headers_of_tried {header : Header}
    (hself : (∃ hash, (S.dag.addBlock header).2 = .ok hash) → header.hash ∈ S.requested →
      header.hash ∈ known) {p : BlockHash} (hp : p ∈ S.requested)
    (hin : p ∈ (S.dag.addBlock header).1.headers) : p ∈ S.dag.headers ∨ p ∈ known := by
  obtain ⟨-, -, hheaders⟩ | ⟨hok, -, hheaders⟩ := S.dag.headers_addBlock header
  · rw [hheaders] at hin
    exact Or.inl hin
  · rw [hheaders, Finmap.mem_insert] at hin
    obtain rfl | hin := hin
    · exact Or.inr (hself ⟨_, hok⟩ hp)
    · exact Or.inl hin

/-- A header is tried and the orphans stay. -/
theorem Explained.tryHeader (h : Explained known S) {header : Header}
    (hdag : T.dag = (S.dag.addBlock header).1) (horphans : T.orphans = S.orphans)
    (hreq : T.requested = S.requested)
    (hself : (∃ hash, (S.dag.addBlock header).2 = .ok hash) → header.hash ∈ S.requested →
      header.hash ∈ known) : Explained known T :=
  h.move (hdag ▸ h.valid.addBlock header)
    (fun hp hin => mem_headers_of_tried hself hp (hdag ▸ hin)) (fun hl => horphans ▸ hl)
    (fun hl => Or.inl (horphans.symm ▸ hl)) fun hp => Or.inl (hreq ▸ hp)

omit [HeaderHash] in
/-- A message other than blocks requests nothing but what it names. -/
theorem mem_requested_onMessage [HeaderHash] (peer : PeerId) (message : Message) (now : ℕ)
    (hblocks : ∀ blocks, message ≠ .blocks blocks) {p : BlockHash}
    (h : p ∈ (S.onMessage peer message now).1.requested) :
    p ∈ S.requested ∨ p ∈ (SyncCall.message peer message now).named := by
  unfold onMessage at h
  split at h
  · exact Or.inl h
  · split at h
    · exact Or.inl h
    · -- what the message names is all it can add
      cases message with
      | version version genesis tips =>
        dsimp only at h
        unfold onVersion at h
        split at h
        · exact Or.inl (mem_requested_penalise.mp h)
        · split at h
          · exact Or.inl (mem_requested_penalise.mp h)
          · exact (mem_requestUnknown_subset h).imp_left mem_requested_modifyPeer.mp
      | verack => exact Or.inl (mem_requested_modifyPeer.mp h)
      | tips hashes => exact mem_requestUnknown_subset h
      | invBlocks hashes =>
        exact (mem_requestUnknown_subset h).imp_left mem_requested_modifyPeer.mp
      | getBlocks hashes =>
        dsimp only at h
        unfold onGetBlocks at h
        dsimp only at h
        split at h
        · exact Or.inl h
        · exact Or.inl (mem_requested_modifyPeer.mp h)
      | blocks blocks => exact absurd rfl (hblocks blocks)
      | ping _ => exact Or.inl h
      | pong _ => exact Or.inl h
      | getTips => exact Or.inl h
      | invTxs _ => exact Or.inl h
      | getTxs _ => exact Or.inl h

/-! ### Calls that bring blocks -/

variable {child : BlockHash} {orphan : Orphan} {header : Header}

/-- **An orphan that is tried was not requested for an orphan**: it lacks no parent, and a hash
that is requested for an orphan is not held. -/
theorem Explained.tryOrphan (h : Explained known S) (hl : S.orphans.lookup child = some orphan)
    (hcomplete : S.Complete orphan) (hdag : T.dag = (S.dag.addBlock orphan.header).1)
    (horphans : T.orphans = S.orphans.erase child) (hreq : T.requested = S.requested) :
    Explained known T := by
  have hself : orphan.header.hash ∈ S.requested → orphan.header.hash ∈ known := by
    rw [h.orphan_key hl]
    intro hreq
    obtain hknown | hself := h.apart hreq hl
    · exact hknown
    · refine (h.explained hreq).resolve_right ?_
      -- it would have to be missing, and the orphan lacks nothing
      rintro ⟨-, -, -, -, hout⟩
      exact hout (hcomplete child hself)
  refine h.move (hdag ▸ h.valid.addBlock _)
    (fun hp hin => mem_headers_of_tried (fun _ => hself) hp (hdag ▸ hin)) (fun hb => ?_)
    (fun {b waiting} hb => ?_) fun hp => Or.inl (hreq ▸ hp)
  · rw [horphans] at hb
    exact (Maps.lookup_erase_eq_some.mp hb).2
  · rw [horphans]
    by_cases hbc : b = child
    · subst hbc
      exact Or.inr (Option.some.inj (hl.symm.trans hb) ▸ hcomplete)
    · exact Or.inl (Maps.lookup_erase_eq_some.mpr ⟨hbc, hb⟩)

/-- The orphans that follow a block leave every request its reason. -/
theorem Explained.resolveOrphansOf (h : Explained known T) (hash : BlockHash) :
    Explained known (T.resolveOrphansOf hash).1 := by
  refine resolveOrphansOf_induct (P := fun _ U _ => Explained known U) ?_ ?_ T hash h
  · exact fun _ _ _ _ _ hU => hU
  · intro parent queue U actions children _ hU
    refine tryChildren_induct (P := fun _ V _ _ => Explained known V) ?_ ?_ ?_ ?_
      (Maps.sortedKeys children) (U.released parent) actions queue ?_
    · exact fun _ _ _ _ _ _ hV => hV
    · exact fun _ _ _ _ _ _ _ _ hV => hV
    · -- an orphan that joins, or is refused, had all its parents: no request depended on it
      intro child _ V _ _ orphan hl hcomplete _ hV
      have hpeers := onlyPeers_joined (S := V) child orphan
      exact hV.tryOrphan hl hcomplete hpeers.samePool.dag (orphans_joined child orphan)
        hpeers.requested
    · exact fun _ _ _ _ _ _ hl hcomplete _ hV => hV.tryOrphan hl hcomplete rfl rfl rfl
    · exact hU.move (T := U.released parent) hU.valid (fun _ hin => Or.inl hin) (fun hl => hl)
        (fun hl => Or.inl hl) fun hp => Or.inl hp

/-- **What an eviction leaves of a reason**: whoever makes room was not the last to wait. -/
theorem Explained.reason_of_evict (h : Explained known S)
    (hmissing : ∃ p ∈ header.parents, p ∉ S.dag.headers)
    (hkeeps : S.EvictsNoLastWaiter known header) {p : BlockHash} (hp : p ∈ S.requested) :
    p ∈ known ∨ p ∉ S.dag.headers ∧ (p ∈ header.parents ∨ ∃ c other,
      (evict S.orphanOrder S).orphans.lookup c = some other ∧ p ∈ other.header.parents) := by
  obtain hknown | ⟨b, orphan, hl, hpar, hlacks⟩ := h.explained hp
  · exact Or.inl hknown
  · -- the orphan that explains the request is either still held or among those evicted
    cases hevicted : (evict S.orphanOrder S).orphans.lookup b with
    | some orphan' =>
      obtain rfl : orphan' = orphan :=
        Option.some.inj ((lookup_of_lookup_evict _ hevicted).symm.trans hl)
      exact Or.inr ⟨hlacks, Or.inr ⟨b, orphan', hevicted, hpar⟩⟩
    | none =>
      have hgone : b ∉ (evict S.orphanOrder S).orphans := Finmap.lookup_eq_none.mp hevicted
      exact (hkeeps hmissing b orphan hl hgone p hpar hp hlacks).imp_right fun hw => ⟨hlacks, hw⟩

/-- **An orphan is held**: it waits for what is requested for it. -/
theorem Explained.store (h : Explained known S) (hrequested : header.hash ∉ S.requested)
    (hheld : header.hash ∉ S.orphans) (hmissing : ∃ p ∈ header.parents, p ∉ S.dag.headers)
    (hkeeps : S.EvictsNoLastWaiter known header) {sender : PeerId}
    (hT : S.Held header sender T) : Explained known T := by
  have hnew : T.orphans.lookup header.hash = some ⟨header, sender⟩ := by
    rw [hT.orphans, Finmap.lookup_insert]
  have hstay : ∀ {b orphan}, (evict S.orphanOrder S).orphans.lookup b = some orphan →
      T.orphans.lookup b = some orphan := by
    intro b orphan hl
    have hne : b ≠ header.hash := by
      rintro rfl
      exact hheld (Maps.mem_of_lookup (lookup_of_lookup_evict _ hl))
    rw [hT.orphans, Maps.lookup_insert, if_neg hne, hl]
  -- what is asked for now is lacking and is not held
  have hasked : ∀ {p}, p ∈ T.requested → p ∈ S.requested ∨
      p ∈ header.parents ∧ p ∉ S.dag.headers ∧ p ∉ S.orphans := by
    intro p hp
    obtain hp | hp := hT.mem_requested.mp hp
    · have hlacks := List.mem_of_mem_filter (List.mem_of_mem_take hp)
      obtain ⟨hpar, hfree⟩ := List.mem_filter.mp hlacks
      rw [Bool.not_eq_true', holds_eq_false_iff] at hfree
      exact Or.inr ⟨hpar, hfree⟩
    · exact Or.inl hp
  have hout : ∀ {p}, p ∉ S.dag.headers → p ∉ T.dag.headers := fun hp => hT.headers.symm ▸ hp
  refine ⟨hT.dag ▸ h.valid.addBlock header, fun {b orphan} hl => ?_, fun {p} hp => ?_,
    fun {p orphan} hp hl => ?_⟩
  · rw [hT.orphans] at hl
    obtain ⟨rfl, rfl⟩ | ⟨-, hl⟩ := Maps.lookup_insert_eq_some.mp hl
    · rfl
    · exact h.orphan_key (lookup_of_lookup_evict _ hl)
  · obtain hp | ⟨hpar, hlacks, -⟩ := hasked hp
    · obtain hknown | ⟨hlacks, hself | ⟨c, other, hc, hother⟩⟩ :=
        h.reason_of_evict hmissing hkeeps hp
      · exact Or.inl hknown
      · exact Or.inr ⟨_, _, hnew, hself, hout hlacks⟩
      · exact Or.inr ⟨c, other, hstay hc, hother, hout hlacks⟩
    · exact Or.inr ⟨_, _, hnew, hpar, hout hlacks⟩
  · rw [hT.orphans] at hl
    obtain hp | ⟨hpar, -, hfree⟩ := hasked hp
    · obtain ⟨rfl, -⟩ | ⟨-, hl⟩ := Maps.lookup_insert_eq_some.mp hl
      · exact absurd hp hrequested
      · exact h.apart hp (lookup_of_lookup_evict _ hl)
    · obtain ⟨-, rfl⟩ | ⟨-, hl⟩ := Maps.lookup_insert_eq_some.mp hl
      · exact Or.inr hpar
      · exact absurd (Maps.mem_of_lookup (lookup_of_lookup_evict _ hl)) hfree

/-- A header is admitted whose own request has been settled. -/
theorem Explained.admitBlock (h : Explained known S) (hrequested : header.hash ∉ S.requested)
    (hheld : header.hash ∉ S.orphans) (hkeeps : S.EvictsNoLastWaiter known header)
    (sender : PeerId) (now : ℕ) : Explained known (S.admitBlock header sender now).1 := by
  have hself : header.hash ∈ S.requested → header.hash ∈ known :=
    fun hreq => absurd hreq hrequested
  obtain ⟨-, -, he⟩ | ⟨block, parent, herror, he⟩ | ⟨-, -, -, he⟩ :=
    S.admit_cases header sender now
  · rw [he]
    have hsame := samePool_relayed (S := S) header sender
    have hreq : (S.relayed header sender).1.requested = S.requested :=
      (onlyPeers_relayed header sender).requested
    -- held as an orphan: the eviction it causes is what the condition is about
    exact (h.tryHeader hsame.dag hsame.orphans hreq fun _ => hself).resolveOrphansOf _
  · rw [he]
    exact h.store hrequested hheld (h.valid.missing_of_addBlock herror).2 hkeeps
      (held_of_addBlock herror sender now)
  · rw [he]
    exact h.tryHeader (T := { S with dag := (S.dag.addBlock header).1 }) rfl rfl rfl fun _ => hself

theorem Explained.onBlocks (h : Explained known S) {peer : PeerId} {blocks : List BlockPayload}
    {now : ℕ} (hkeeps : ∀ T block, S.Takes peer blocks now T block →
      (T.taken peer block).EvictsNoLastWaiter known block.header) :
    Explained known (S.onBlocks peer blocks now).1 := by
  have hreceived : ∀ {T : DagSync} {hash : BlockHash}, Explained known T →
      Explained known (T.received peer hash) := by
    intro T hash hT
    refine hT.samePool (samePool_received peer hash) fun {p} hp => Or.inl ?_
    rw [requested_received] at hp
    exact (Finmap.mem_erase.mp hp).2
  -- known already, refused by the gate, or taken in
  refine onBlocks_induct ?_ ?_ ?_ h
  · exact fun hash T hT => hreceived hT
  · intro hash T hT
    have hpeers := onlyPeers_penalise (S := T.received peer hash) peer .invalidBlock "invalid block"
    exact (hreceived hT).samePool hpeers.samePool fun hp => Or.inl (hpeers.requested ▸ hp)
  · intro block T htakes hT
    have htaken : Explained known (T.taken peer block) :=
      (hreceived hT).move (T := T.taken peer block) (hreceived hT).valid (fun _ hin => Or.inl hin)
        (fun hl => hl) (fun hl => Or.inl hl) fun hp => Or.inl hp
    refine htaken.admitBlock ?_ ?_ (hkeeps T block htakes) peer now
    · -- its own request is settled
      change block.hash ∉ (T.received peer block.hash).requested
      rw [requested_received, Finmap.mem_erase]
      exact fun hmem => hmem.1 rfl
    · change block.hash ∉ (T.received peer block.hash).orphans
      rw [(samePool_received peer block.hash).orphans]
      exact htakes.facts.2.2

theorem Explained.onLocalBlock (h : Explained known S) {block : BlockPayload}
    (hkeeps : (∃ hash, (S.dag.addBlock block.header).2 = .ok hash) →
      block.hash ∈ S.requested → block.hash ∈ known) :
    Explained known (S.onLocalBlock block).1 := by
  obtain ⟨-, -, he⟩ | ⟨-, -, he⟩ := S.onLocalBlock_cases block
  · rw [he]
    have hsame := samePool_mined (S := S) block
    have hreq : (S.mined block).1.requested = S.requested := (onlyPeers_mined block).requested
    exact (h.tryHeader hsame.dag hsame.orphans hreq hkeeps).resolveOrphansOf _
  · rw [he]
    exact h.tryHeader (T := { S with
      bodies := S.bodies.insert block.hash block.transactions
      dag := (S.dag.addBlock block.header).1 }) rfl rfl rfl hkeeps

/-- **One call that leaves no stray keeps every request its reason.** -/
theorem Explained.step {calls : List SyncCall} (h : Explained (named calls) S) {call : SyncCall}
    (hcall : LeavesNoStray (S, calls) call) : Explained (named (calls ++ [call])) (S.step call) := by
  -- hashes the call names are on record from now on
  have hnamed : ∀ {p}, p ∈ call.named → p ∈ named (calls ++ [call]) := by
    intro p hp
    unfold named
    rw [List.flatMap_append, List.mem_append]
    exact Or.inr (List.mem_flatMap.mpr ⟨call, List.mem_singleton_self call, hp⟩)
  have hsub : named calls ⊆ named (calls ++ [call]) := by
    intro p hp
    unfold named at hp ⊢
    rw [List.flatMap_append]
    exact List.mem_append_left _ hp
  have hmore := h.mono hsub
  cases call with
  | connect peer =>
    exact hmore.samePool (T := (S.onConnect peer).1) ⟨rfl, rfl, rfl, rfl, rfl, rfl, rfl, rfl⟩
      fun hp => Or.inl hp
  | disconnect peer =>
    refine hmore.samePool (T := S.onDisconnect peer) ⟨rfl, rfl, rfl, rfl, rfl, rfl, rfl, rfl⟩
      fun {p} hp => Or.inl ?_
    obtain ⟨request, hl⟩ := Maps.mem_iff_exists_lookup.mp hp
    exact Maps.mem_of_lookup (Maps.lookup_retain_eq_some.mp hl).1
  | tick now =>
    exact hmore.samePool (samePool_onTick now) fun hp => Or.inl (mem_requested_onTick hp)
  | localBlock block => exact (h.onLocalBlock hcall).mono hsub
  | message peer message now =>
    change Explained _ (S.onMessage peer message now).1
    obtain ⟨blocks, rfl, hready, hstep⟩ | ⟨blocks, rfl, -, hstep⟩ | hother :=
      S.onMessage_cases peer message now
    · rw [hstep]
      exact (h.onBlocks (hcall hready)).mono hsub
    · rw [hstep]
      exact hmore
    · exact hmore.samePool (samePool_onMessage peer message now hother) fun hp =>
        (mem_requested_onMessage peer message now hother hp).imp_right hnamed

/-- **Every request is accounted for**, in every state of every run whose calls leave no stray. -/
theorem requests_accounted (genesis : Header) (k : UInt16) (limit : ℕ) (stored : List Header)
    (gate : Header → Except String Unit) (config : SyncConfig) {calls : List SyncCall}
    (hcalls : Runs.Each (Runs.record step) LeavesNoStray
      (new ((DagStore.new genesis k limit).addBlocks stored) gate config, []) calls) :
    Runs.Throughout (Runs.record step) Accounted
      (new ((DagStore.new genesis k limit).addBlocks stored) gate config, []) calls := by
  refine (Runs.Each.throughout
    (I := fun session : DagSync × List SyncCall => Explained (named session.2) session.1)
    (fun session call h hcall => h.step hcall) hcalls
    ⟨(DagStore.new_valid genesis k limit).addBlocks stored, ?_, ?_, ?_⟩).imp fun session h =>
      accounted_of_explained fun p hp => h.explained hp
  · exact fun hl => absurd (Maps.mem_of_lookup hl) Finmap.notMem_empty
  · exact fun hp => absurd hp Finmap.notMem_empty
  · exact fun hp => absurd hp Finmap.notMem_empty

end Explained

section Flood

open Sample

/-- Two orphans of one parent arrive at a pool for one, and time passes. -/
def siblingEvicted : List SyncCall :=
  [.connect 7, .message 7 .verack 0, deliverOne (block 2 [1] 0x2000ffff),
    deliverOne (block 4 [1] 0x2000ffff), .tick 5000]

/-- The second orphan evicts the first, and still waits for what was asked for. -/
theorem accounted_siblingEvicted :
    hashOf 2 ∈ (Runs.after step small (siblingEvicted.take 3)).orphans ∧
      hashOf 2 ∉ (Runs.after step small siblingEvicted).orphans ∧
      hashOf 1 ∈ (Runs.after step small siblingEvicted).requested ∧
      Runs.Throughout (Runs.record step) Accounted (small, []) siblingEvicted := by
  refine ⟨by decide +kernel, by decide +kernel, by decide +kernel, ?_⟩
  have hheld : (Runs.after step small (siblingEvicted.take 3)).orphans.keys = {hashOf 2} := by
    decide +kernel
  have hparents : ((Runs.after step small (siblingEvicted.take 3)).orphans.lookup (hashOf 2)).map
      (fun orphan => orphan.header.parents) = some [hashOf 1] := by decide +kernel
  refine requests_accounted root 2 10 [] _ _ ⟨trivial, trivial, fun _ => ?_, fun _ => ?_, trivial,
    trivial⟩
  · -- nothing is evicted for the first
    intro T payload htakes
    obtain ⟨rfl, rfl⟩ := htakes.single
    exact fun _ b orphan hl => absurd (Maps.mem_of_lookup hl) Finmap.notMem_empty
  · -- what the first has waited for is the parent of the second
    intro T payload htakes
    obtain ⟨rfl, rfl⟩ := htakes.single
    intro _ b orphan hl _ p hp _ _
    have hb : b ∈ (Runs.after step small (siblingEvicted.take 3)).orphans.keys :=
      Finmap.mem_keys.mpr (Maps.mem_of_lookup hl)
    rw [hheld, Finset.mem_singleton] at hb
    subst hb
    change (Runs.after step small (siblingEvicted.take 3)).orphans.lookup (hashOf 2) = _ at hl
    rw [hl, Option.map_some, Option.some.injEq] at hparents
    rw [hparents] at hp
    exact Or.inr (Or.inl hp)

/-- Two orphans of different parents arrive at a pool for one. -/
def orphanEvicted : List SyncCall :=
  [.connect 7, .message 7 .verack 0, deliverOne (block 2 [1] 0x2000ffff),
    deliverOne (block 4 [3] 0x2000ffff)]

/-- **A request outlives its reason.** The first orphan has been evicted, and every tick asks for
its parent nevertheless. -/
theorem stray_after_eviction :
    .send 7 (.getBlocks [hashOf 1, hashOf 3]) ∈
        ((Runs.after step small orphanEvicted).onTick 5000).2 ∧
      ¬ Accounted (Runs.after (Runs.record step) (small, []) orphanEvicted) := by
  have hrequested : hashOf 1 ∈ (Runs.after step small orphanEvicted).requested := by
    decide +kernel
  have hheld : (Runs.after step small orphanEvicted).orphans.keys = {hashOf 4} := by
    decide +kernel
  have hparents : ((Runs.after step small orphanEvicted).orphans.lookup (hashOf 4)).map
      (fun orphan => orphan.header.parents) = some [hashOf 3] := by decide +kernel
  have hunnamed : hashOf 1 ∉ named ([] ++ orphanEvicted) := by decide +kernel
  have hne : hashOf 1 ∉ [hashOf 3] := by decide +kernel
  refine ⟨by decide +kernel, fun h => ?_⟩
  rw [Runs.after_record] at h
  -- from here on only what has just been evaluated is used
  generalize Runs.after step small orphanEvicted = S at h hrequested hheld hparents
  obtain hnamed | ⟨b, orphan, hl, hp, -⟩ := h.explained (hashOf 1) hrequested
  · exact hunnamed hnamed
  · have hb : b ∈ S.orphans.keys := Finmap.mem_keys.mpr (Maps.mem_of_lookup hl)
    rw [hheld, Finset.mem_singleton] at hb
    subst hb
    have hl : S.orphans.lookup (hashOf 4) = some orphan := hl
    rw [hl, Option.map_some, Option.some.injEq] at hparents
    exact hne (hparents ▸ hp)

end Flood

end DagSync

end Chainname
