import Chainname.Library.RoundRobin
import Chainname.Net.HeldBodies

/-!
# Requests that are forgotten

A parent that a held orphan lacks is asked for when the orphan is stored, and the request stays
until the block arrives. `Asked` says that no such parent is without a request. It is lost where
the request is dropped and nobody asks again: the peer that owes it leaves, it times out when
no peer is ready or when more requests time out than one message to each ready peer can name,
the block arrives and is refused, it was held and is evicted, it was held and is refused when
its own parents have arrived, or it is beyond the first `maxInvEntries` missing parents.

`ForgetsNothing` says that a call does none of this, in terms of the state it is made in, and
`asked_throughout` that every missing parent is requested then. One disconnect is enough to
lose a request (`forgotten_on_disconnect`).
-/

namespace Chainname.DagSync

/-- A parent that a held orphan waits for, and that is not held as an orphan itself. -/
def Missing (S : DagSync) (p : BlockHash) : Prop :=
  ∃ b orphan, S.orphans.lookup b = some orphan ∧ p ∈ orphan.header.parents ∧
    p ∉ S.dag.headers ∧ p ∉ S.orphans

/-- Every missing parent is requested from some peer. -/
def Asked (S : DagSync) : Prop := ∀ p, S.Missing p → p ∈ S.requested

section Conditions

variable [HeaderHash]

/-- When the header joins, no orphan that another one waits for finds its merge set too large. -/
def ParentsFit (S : DagSync) (header : Header) : Prop :=
  ∀ followers : List Header, (∀ h ∈ followers, ∃ b orphan, S.orphans.lookup b = some orphan ∧
    orphan.header = h) → ∀ b orphan, S.orphans.lookup b = some orphan →
      TooLarge ((S.dag.addBlock header).1.addBlocks followers) orphan.header →
        ∀ c waiting, S.orphans.lookup c = some waiting → b ∉ waiting.header.parents

/-- Admitting the header forgets no request. -/
structure KeepsAsking (S : DagSync) (header : Header) : Prop where
  /-- Nobody waits for it if it is refused for good. -/
  refused : ∀ e, (S.dag.addBlock header).2 = .error e →
    (∀ block parent, e ≠ .missingParent block parent) → ¬ S.Missing header.hash
  /-- Nobody waits for an orphan that makes room for it. -/
  evicted : (∃ p ∈ header.parents, p ∉ S.dag.headers) → ∀ b ∈ S.orphans,
    b ∉ (evict S.orphanOrder S).orphans → b ∉ header.parents ∧
      ∀ c waiting, (evict S.orphanOrder S).orphans.lookup c = some waiting →
        b ∉ waiting.header.parents
  /-- One message can ask for the parents it lacks. -/
  asked : ∀ p ∈ S.missingParents header, p ∈ S.requested ∨ p ∈ S.wanted (S.missingParents header)
  fits : S.ParentsFit header

/-- The call forgets no request for a missing parent. -/
def ForgetsNothing (S : DagSync) : SyncCall → Prop
  | .disconnect peer => ∀ p owner since, S.Missing p → S.requested.lookup p = some (owner, since) →
    owner ≠ peer
  | .tick now => ∀ i p, (S.stale now)[i]? = some p → S.Missing p →
    i < maxInvEntries * (S.peersWith PeerState.isReady).length
  | .message peer (.blocks blocks) now => S.isReady peer = true →
    (∀ T block rest, Reaches peer now S blocks T (block :: rest) →
      (∃ reason, T.gate block.header = .error reason) → ¬ T.Missing block.hash) ∧
    ∀ T block, S.Takes peer blocks now T block → (T.taken peer block).KeepsAsking block.header
  | .localBlock block => S.ParentsFit block.header
  | _ => True

end Conditions

/-! ### What a request adds -/

section Requests

variable {S : DagSync}

theorem mem_requested_requestFrom {peer : PeerId} {hashes : List BlockHash} {now : ℕ}
    {b : BlockHash} : b ∈ (S.requestFrom peer hashes now).1.requested ↔
      b ∈ S.wanted hashes ∨ b ∈ S.requested := by
  rw [← Finmap.lookup_isSome, lookup_requestFrom, ← Finmap.lookup_isSome]
  by_cases hb : b ∈ S.wanted hashes
  · simp [hb]
  · simp [hb]

/-- What passes a filter among the first entries is among the first that pass it. -/
theorem mem_take_filter {α : Type} {q : α → Bool} {l : List α} {n : ℕ} {x : α} (hx : x ∈ l.take n)
    (hq : q x = true) : x ∈ (l.filter q).take n := by
  have hprefix : (l.take n).filter q <+: (l.filter q).take n := by
    refine List.prefix_take_iff.mpr ⟨(List.take_prefix n l).filter q, ?_⟩
    exact (List.length_filter_le _ _).trans (List.length_take_le n l)
  exact hprefix.subset (List.mem_filter.mpr ⟨hx, hq⟩)

/-- The first entries of a list are requested, now or before. -/
theorem mem_requestFrom_of_mem_take {peer : PeerId} {hashes : List BlockHash} {now : ℕ}
    {b : BlockHash} (hb : b ∈ hashes.take maxInvEntries) :
    b ∈ (S.requestFrom peer hashes now).1.requested := by
  refine mem_requested_requestFrom.mpr ?_
  by_cases hreq : b ∈ S.requested
  · exact .inr hreq
  · exact .inl (mem_take_filter hb (decide_eq_true hreq))

/-- Asking the peers for their buckets drops no request. -/
theorem mem_requestBuckets {now : ℕ} {buckets : List (PeerId × List BlockHash)}
    {actions : List Action} {b : BlockHash} (hb : b ∈ S.requested) :
    b ∈ (requestBuckets now buckets S actions).1.requested := by
  induction buckets generalizing S actions with
  | nil => exact hb
  | cons entry buckets ih =>
    unfold requestBuckets
    split
    · exact ih hb
    · exact ih (mem_requested_requestFrom.mpr (.inr hb))

/-- The first entries of each bucket are requested. -/
theorem mem_requestBuckets_of_mem_take {now : ℕ} {buckets : List (PeerId × List BlockHash)}
    {actions : List Action} {b : BlockHash}
    (hb : ∃ entry ∈ buckets, b ∈ entry.2.take maxInvEntries) :
    b ∈ (requestBuckets now buckets S actions).1.requested := by
  induction buckets generalizing S actions with
  | nil =>
    obtain ⟨entry, hentry, -⟩ := hb
    exact absurd hentry List.not_mem_nil
  | cons first buckets ih =>
    obtain ⟨entry, hentry, htake⟩ := hb
    unfold requestBuckets
    -- asked in the first bucket, or in a later one
    obtain rfl | hentry := List.mem_cons.mp hentry
    · split
      · next hnil =>
        rw [hnil] at htake
        simp at htake
      · exact mem_requestBuckets (mem_requestFrom_of_mem_take htake)
    · split
      · exact ih ⟨entry, hentry, htake⟩
      · exact ih ⟨entry, hentry, htake⟩

/-- **The buckets share the load**: what is at place `i` of the list is among the first `m` of its
bucket, if `i` is less than `m` for each of the `n` buckets. -/
theorem mem_take_bucket {hashes : List BlockHash} {start n m i : ℕ} {b : BlockHash}
    (hi : hashes[i]? = some b) (hlt : i < m * n) :
    b ∈ (bucket hashes start n ((start + i) % n)).take m := by
  have hn : 0 < n := Nat.pos_of_ne_zero fun h => by simp [h] at hlt
  obtain ⟨hplace, hget⟩ := List.getElem?_eq_some_iff.mp (RoundRobin.getElem?_hand start hn hi)
  have hm : i / n < m := (Nat.div_lt_iff_lt_mul hn).mpr hlt
  exact List.mem_take_iff_getElem.mpr ⟨i / n, lt_min hm hplace, hget⟩

end Requests

/-! ### Calls that bring no block -/

section Kept

variable {S T : DagSync}

theorem SamePool.missing_iff (h : S.SamePool T) {p : BlockHash} : T.Missing p ↔ S.Missing p := by
  unfold Missing
  rw [h.dag, h.orphans]

theorem Asked.samePool (h : S.Asked) (hT : S.SamePool T)
    (hreq : ∀ p, S.Missing p → p ∈ S.requested → p ∈ T.requested) : T.Asked := by
  intro p hp
  have hp := hT.missing_iff.mp hp
  exact hreq p hp (h p hp)

/-- What times out is asked for again, as far as the messages to the ready peers go. -/
theorem Asked.onTick (h : S.Asked) {now : ℕ} (hcall : ∀ i p, (S.stale now)[i]? = some p →
    S.Missing p → i < maxInvEntries * (S.peersWith PeerState.isReady).length) :
    (S.onTick now).1.Asked := by
  refine h.samePool (samePool_onTick now) fun p hp hreq => ?_
  -- a hash that is not stale keeps its request
  have hkept : p ∉ S.stale now →
      p ∈ (S.stale now).foldl (fun requested hash => requested.erase hash) S.requested :=
    fun hstale => Maps.mem_foldl_erase.mpr ⟨hreq, hstale⟩
  unfold DagSync.onTick
  dsimp only
  split
  · next hnone =>
    refine hkept fun hstale => ?_
    obtain ⟨i, hi⟩ := List.getElem?_of_mem hstale
    have hlt := hcall i p hi hp
    obtain hnil | hready := hnone
    · rw [hnil] at hstale
      exact absurd hstale List.not_mem_nil
    · -- nobody is ready to be asked
      have hready : S.peersWith PeerState.isReady = [] := hready
      rw [hready] at hlt
      exact absurd hlt (Nat.not_lt_zero _)
  · by_cases hstale : p ∈ S.stale now
    · obtain ⟨i, hi⟩ := List.getElem?_of_mem hstale
      have hlt := hcall i p hi hp
      have hn : 0 < (S.peersWith PeerState.isReady).length :=
        Nat.pos_of_ne_zero fun hzero => by simp [hzero] at hlt
      -- the stale hash of index `i` goes to the peer at `(start + i) mod n`
      set start := ((S.retryCursor + 1) % 2 ^ 64) % (S.peersWith PeerState.isReady).length
      have hj := Nat.mod_lt (start + i) hn
      refine mem_requestBuckets_of_mem_take ⟨((S.peersWith PeerState.isReady)[(start + i) %
        (S.peersWith PeerState.isReady).length], bucket (S.stale now) start
          (S.peersWith PeerState.isReady).length
          ((start + i) % (S.peersWith PeerState.isReady).length)), ?_, mem_take_bucket hi hlt⟩
      refine List.mem_map.mpr ⟨(_, (start + i) % (S.peersWith PeerState.isReady).length), ?_, rfl⟩
      exact List.mk_mem_zipIdx_iff_getElem?.mpr (List.getElem?_eq_getElem hj)
    · exact mem_requestBuckets (hkept hstale)

theorem mem_requested_modifyPeer {peer : PeerId} {f : PeerState → PeerState} {p : BlockHash} :
    p ∈ (S.modifyPeer peer f).requested ↔ p ∈ S.requested := by
  rw [(onlyPeers_modifyPeer peer f).requested]

theorem mem_requested_penalise {peer : PeerId} {what : Misbehaviour} {reason : String}
    {p : BlockHash} : p ∈ (S.penalise peer what reason).1.requested ↔ p ∈ S.requested := by
  rw [(onlyPeers_penalise peer what reason).requested]

theorem requested_onVersion (peer : PeerId) (version : UInt32) (genesis : BlockHash)
    (tips : List BlockHash) (now : ℕ) {p : BlockHash} (hp : p ∈ S.requested) :
    p ∈ (S.onVersion peer version genesis tips now).1.requested := by
  unfold onVersion
  split
  · exact mem_requested_penalise.mpr hp
  · split
    · exact mem_requested_penalise.mpr hp
    · split
      · exact hp
      · exact mem_requested_requestFrom.mpr (.inr (mem_requested_modifyPeer.mpr hp))

theorem requested_onGetBlocks [HeaderHash] (peer : PeerId) (hashes : List BlockHash)
    {p : BlockHash} (hp : p ∈ S.requested) : p ∈ (S.onGetBlocks peer hashes).1.requested := by
  unfold onGetBlocks
  dsimp only
  split
  · exact hp
  · exact mem_requested_modifyPeer.mpr hp

/-- A message other than blocks drops no request. -/
theorem requested_onMessage [HeaderHash] (peer : PeerId) (message : Message) (now : ℕ)
    (hblocks : ∀ blocks, message ≠ .blocks blocks) {p : BlockHash} (hp : p ∈ S.requested) :
    p ∈ (S.onMessage peer message now).1.requested := by
  unfold onMessage
  split
  · exact hp
  · split
    · exact hp
    · -- only `blocks` takes requests away
      cases message with
      | version version genesis tips => exact requested_onVersion peer version genesis tips now hp
      | verack => exact mem_requested_modifyPeer.mpr hp
      | tips hashes => exact mem_requested_requestFrom.mpr (.inr hp)
      | invBlocks hashes =>
        exact mem_requested_requestFrom.mpr (.inr (mem_requested_modifyPeer.mpr hp))
      | getBlocks hashes => exact requested_onGetBlocks peer hashes hp
      | blocks blocks => exact absurd rfl (hblocks blocks)
      | ping _ => exact hp
      | pong _ => exact hp
      | getTips => exact hp
      | invTxs _ => exact hp
      | getTxs _ => exact hp

end Kept

/-! ### Calls that bring blocks -/

section Asking

variable [HeaderHash]

/-- Every missing parent is requested, but for those of `except`. -/
structure Asking (except : BlockHash → Prop) (S : DagSync) : Prop where
  valid : S.dag.Valid
  orphan_key : ∀ {b orphan}, S.orphans.lookup b = some orphan → orphan.header.hash = b
  orphan_parents : ∀ {b orphan}, S.orphans.lookup b = some orphan → orphan.header.parents ≠ []
  asked : ∀ {p}, S.Missing p → except p ∨ p ∈ S.requested

variable {except : BlockHash → Prop} {S T : DagSync}

theorem Asking.all (h : Asking (fun _ => False) S) : S.Asked :=
  fun _ hp => (h.asked hp).resolve_left id

/-- The orphans stay as they are, and requests are only added. -/
theorem Asking.congr (h : Asking except S) (hvalid : T.dag.Valid)
    (hheaders : T.dag.headers = S.dag.headers) (horphans : T.orphans = S.orphans)
    (hreq : ∀ {p}, S.Missing p → except p ∨ p ∈ S.requested → except p ∨ p ∈ T.requested) :
    Asking except T := by
  have hmissing : ∀ {p}, T.Missing p ↔ S.Missing p := by
    intro p
    unfold Missing
    rw [hheaders, horphans]
  refine ⟨hvalid, ?_, ?_, fun hp => hreq (hmissing.mp hp) (h.asked (hmissing.mp hp))⟩
  · rw [horphans]
    exact h.orphan_key
  · rw [horphans]
    exact h.orphan_parents

theorem Asking.samePool (h : Asking except S) (hT : S.SamePool T)
    (hreq : T.requested = S.requested) : Asking except T :=
  h.congr (hT.dag ▸ h.valid) (by rw [hT.dag]) hT.orphans fun _ hp => by rwa [hreq]

/-- The DAG grows by a block, and the block may leave the pool. -/
theorem Asking.join (h : Asking except S) {header : Header}
    (hok : ∃ hash, (S.dag.addBlock header).2 = .ok hash)
    (hdag : T.dag = (S.dag.addBlock header).1)
    (horphans : ∀ {b orphan}, T.orphans.lookup b = some orphan →
      S.orphans.lookup b = some orphan)
    (hleave : ∀ {b}, b ∈ S.orphans → b ≠ header.hash → b ∈ T.orphans)
    (hreq : T.requested = S.requested) (hexcept : ∀ b, except b → b = header.hash) :
    Asking (fun _ => False) T := by
  obtain ⟨_, hok⟩ := hok
  have hmem : ∀ {b}, b ∈ T.dag.headers ↔ b = header.hash ∨ b ∈ S.dag.headers := by
    intro b
    rw [hdag]
    exact DagStore.mem_addBlock_of_ok hok
  refine ⟨hdag ▸ h.valid.addBlock header, fun hl => h.orphan_key (horphans hl),
    fun hl => h.orphan_parents (horphans hl), ?_⟩
  rintro p ⟨b, orphan, hl, hp, hout, hfree⟩
  rw [hmem, not_or] at hout
  -- what is missing now was missing before
  have hbefore : S.Missing p :=
    ⟨b, orphan, horphans hl, hp, hout.2, fun hin => hfree (hleave hin hout.1)⟩
  rw [hreq]
  exact (h.asked hbefore).imp_left fun hex => hout.1 (hexcept p hex)

variable {header : Header} {child : BlockHash} {orphan : Orphan}

theorem Asking.joined (h : Asking (fun _ => False) T) (hl : T.orphans.lookup child = some orphan)
    (hok : ∃ hash, (T.dag.addBlock orphan.header).2 = .ok hash) :
    Asking (fun _ => False) (T.joined child orphan).1 := by
  have hkey := h.orphan_key hl
  have hpeers := onlyPeers_joined (S := T) child orphan
  have hjoin : Asking (fun _ => False) ({ T.tried child orphan with
      accepted := T.accepted ++ [child] } : DagSync) := by
    refine h.join hok rfl (fun hb => (Maps.lookup_erase_eq_some.mp hb).2)
      (fun hb hne => Finmap.mem_erase.mpr ⟨hkey ▸ hne, hb⟩) rfl fun _ hex => hex.elim
  exact hjoin.samePool hpeers.samePool hpeers.requested

/-- An orphan that is refused is in the DAG already, or nobody waits for it. -/
theorem Asking.refused (h : Asking (fun _ => False) T) (htrail : Trail S header T)
    (hfits : S.ParentsFit header) (hl : T.orphans.lookup child = some orphan)
    (hcomplete : T.Complete orphan) (herror : ∃ e, (T.dag.addBlock orphan.header).2 = .error e) :
    Asking (fun _ => False) (T.tried child orphan) := by
  have hkey := h.orphan_key hl
  have hrefused := htrail.refused h.valid (h.orphan_parents hl) hcomplete herror
  obtain ⟨e, he⟩ := herror
  have hheaders := DagStore.headers_addBlock_of_error he
  refine ⟨h.valid.addBlock _, fun hb => h.orphan_key (Maps.lookup_erase_eq_some.mp hb).2,
    fun hb => h.orphan_parents (Maps.lookup_erase_eq_some.mp hb).2, ?_⟩
  rintro p ⟨b, waiting, hb, hp, hout, hfree⟩
  have hb := (Maps.lookup_erase_eq_some.mp hb).2
  change p ∉ (T.dag.addBlock orphan.header).1.headers at hout
  rw [hheaders] at hout
  refine h.asked ⟨b, waiting, hb, hp, hout, fun hin => ?_⟩
  -- only the orphan itself has left the pool
  have hchild : p = child := by
    by_contra hne
    exact hfree (Finmap.mem_erase.mpr ⟨hne, hin⟩)
  obtain hdag | ⟨followers, hfollowers, hlarge⟩ := hrefused
  · rw [hkey, ← hchild] at hdag
    exact hout hdag
  · refine hfits followers hfollowers child orphan (htrail.orphans hl) hlarge b waiting
      (htrail.orphans hb) ?_
    rw [← hchild]
    exact hp

/-- **The orphans that follow a block forget no request.** -/
theorem Asking.resolveOrphansOf (h : Asking (fun _ => False) T) (htrail : Trail S header T)
    (hfits : S.ParentsFit header) (hash : BlockHash) :
    Asking (fun _ => False) (T.resolveOrphansOf hash).1 := by
  refine (resolveOrphansOf_induct
    (P := fun _ U _ => Asking (fun _ => False) U ∧ Trail S header U) ?_ ?_ T hash ⟨h, htrail⟩).1
  · exact fun _ _ _ _ _ hU => hU
  · -- all parents fit a request, so what follows the header leaves no one unasked
    rintro parent queue U actions children - ⟨hU, hUtrail⟩
    refine tryChildren_induct (P := fun _ V _ _ => Asking (fun _ => False) V ∧ Trail S header V)
      ?_ ?_ ?_ ?_ (Maps.sortedKeys children) (U.released parent) actions queue ?_
    · exact fun _ _ _ _ _ _ hV => hV
    · exact fun _ _ _ _ _ _ _ _ hV => hV
    · exact fun _ _ _ _ _ _ hl _ hok hV => ⟨hV.1.joined hl hok, hV.2.joined hl⟩
    · exact fun _ _ _ _ _ _ hl hcomplete herror hV =>
        ⟨hV.1.refused hV.2 hfits hl hcomplete herror, hV.2.tried hl⟩
    · exact ⟨hU.congr (T := U.released parent) hU.valid rfl rfl fun _ hp => hp, hUtrail.orphans,
        hUtrail.dag⟩

omit [HeaderHash] in
/-- What is evicted does not depend on the DAG. -/
theorem orphans_evict_withDag (S : DagSync) (dag : DagStore) (order : List BlockHash) :
    (evict order { S with dag := dag }).orphans = (evict order S).orphans := by
  induction order generalizing S with
  | nil => rfl
  | cons oldest rest ih =>
    unfold evict
    split
    · rfl
    · dsimp only
      cases S.orphans.lookup oldest with
      | none => exact ih S
      -- eviction looks at the pool alone
      | some evicted =>
        exact ih { S with
          orphans := S.orphans.erase oldest
          waitingOn := unwait oldest evicted.header.parents S.waitingOn }

/-- `T` is `S` after the header has been held as an orphan and the parents it lacks have been
asked for. -/
structure Held (S : DagSync) (header : Header) (sender : PeerId) (T : DagSync) : Prop where
  dag : T.dag = (S.dag.addBlock header).1
  headers : T.dag.headers = S.dag.headers
  orphans : T.orphans = (evict S.orphanOrder S).orphans.insert header.hash ⟨header, sender⟩
  mem_requested : ∀ {p},
    p ∈ T.requested ↔ p ∈ S.wanted (S.missingParents header) ∨ p ∈ S.requested

/-- What is done with a header whose parents are missing. -/
theorem held_of_addBlock {header : Header} {e : DagError}
    (herror : (S.dag.addBlock header).2 = .error e) (sender : PeerId) (now : ℕ) :
    S.Held header sender
      ((({ S with dag := (S.dag.addBlock header).1 } : DagSync).storeOrphan header.hash header
          sender).requestFrom sender
        (({ S with dag := (S.dag.addBlock header).1 } : DagSync).missingParents header) now).1 := by
  have hheaders := DagStore.headers_addBlock_of_error herror
  -- a refused header leaves the headers as they were
  have hparents : ({ S with dag := (S.dag.addBlock header).1 } : DagSync).missingParents header
      = S.missingParents header := by
    unfold missingParents holds
    rw [hheaders]
  rw [hparents]
  have hstored := onlyOrphans_storeOrphan (S := { S with dag := (S.dag.addBlock header).1 })
    header.hash header sender
  have hsame := samePool_requestFrom (S := ({ S with dag := (S.dag.addBlock header).1 } :
    DagSync).storeOrphan header.hash header sender) sender (S.missingParents header) now
  have hdag := hsame.dag.trans hstored.dag
  refine ⟨hdag, (congrArg DagStore.headers hdag).trans hheaders, ?_, ?_⟩
  · rw [hsame.orphans, ← orphans_evict_withDag S (S.dag.addBlock header).1]
    rfl
  · intro p
    rw [mem_requested_requestFrom]
    unfold wanted
    rw [hstored.requested]

/-- An orphan is stored, and the parents it lacks are asked for. -/
theorem Asking.store (h : Asking (· = header.hash) S)
    (hmissing : ∃ p ∈ header.parents, p ∉ S.dag.headers) (hkeeps : S.KeepsAsking header)
    {sender : PeerId} (hT : S.Held header sender T) : Asking (fun _ => False) T := by
  have hne : header.parents ≠ [] := by
    obtain ⟨p, hp, -⟩ := hmissing
    exact List.ne_nil_of_mem hp
  -- an orphan of the new pool is the new one, or was held before
  have hpool : ∀ {b orphan}, T.orphans.lookup b = some orphan →
      b = header.hash ∧ orphan = ⟨header, sender⟩ ∨
        (evict S.orphanOrder S).orphans.lookup b = some orphan := by
    intro b orphan hl
    rw [hT.orphans] at hl
    exact (Maps.lookup_insert_eq_some.mp hl).imp_right And.right
  refine ⟨hT.dag ▸ h.valid.addBlock header, fun hl => ?_, fun hl => ?_, ?_⟩
  · obtain ⟨rfl, rfl⟩ | hold := hpool hl
    · rfl
    · exact h.orphan_key (lookup_of_lookup_evict _ hold)
  · obtain ⟨-, rfl⟩ | hold := hpool hl
    · exact hne
    · exact h.orphan_parents (lookup_of_lookup_evict _ hold)
  rintro p ⟨b, waiting, hl, hp, hout, hfree⟩
  rw [hT.headers] at hout
  rw [hT.orphans, Finmap.mem_insert, not_or] at hfree
  -- an orphan that makes room is nobody's parent
  have hnot : p ∉ S.orphans := by
    intro hin
    obtain ⟨hself, hothers⟩ := hkeeps.evicted hmissing p hin hfree.2
    obtain ⟨-, rfl⟩ | hold := hpool hl
    · exact hself hp
    · exact hothers b waiting hold hp
  refine .inr (hT.mem_requested.mpr ?_)
  obtain ⟨-, rfl⟩ | hold := hpool hl
  · have hlacks : p ∈ S.missingParents header := by
      refine List.mem_filter.mpr ⟨hp, ?_⟩
      rw [holds_eq_false_iff.mpr ⟨hout, hnot⟩]
      rfl
    exact (hkeeps.asked p hlacks).symm
  · exact .inr ((h.asked ⟨b, waiting, lookup_of_lookup_evict _ hold, hp, hout, hnot⟩).resolve_left
      hfree.1)

/-- A header is admitted whose own request has been settled. -/
theorem Asking.admitBlock (h : Asking (· = header.hash) S) (hkeeps : S.KeepsAsking header)
    (sender : PeerId) (now : ℕ) :
    Asking (fun _ => False) (S.admitBlock header sender now).1 := by
  obtain ⟨hash, hok, he⟩ | ⟨block, parent, herror, he⟩ | ⟨e, herror, hother, he⟩ :=
    S.admit_cases header sender now
  · rw [he]
    have hsame := samePool_relayed (S := S) header sender
    have hreq : (S.relayed header sender).1.requested = S.requested :=
      (onlyPeers_relayed header sender).requested
    have hjoin : Asking (fun _ => False) (S.relayed header sender).1 :=
      h.join ⟨hash, hok⟩ hsame.dag (fun hl => hsame.orphans ▸ hl)
        (fun hb _ => hsame.orphans ▸ hb) hreq fun _ he => he
    exact hjoin.resolveOrphansOf (.start hsame.dag hsame.orphans) hkeeps.fits _
  · rw [he]
    exact h.store (h.valid.missing_of_addBlock herror).2 hkeeps (held_of_addBlock herror sender now)
  · rw [he]
    have hheaders := DagStore.headers_addBlock_of_error herror
    obtain ⟨h₁, h₂, h₃, h₄⟩ :=
      h.congr (T := { S with dag := (S.dag.addBlock header).1 }) (h.valid.addBlock header) hheaders
        rfl fun _ hp => hp
    refine ⟨h₁, h₂, h₃, fun {p} hp => .inr ((h₄ hp).resolve_left fun hhash => ?_)⟩
    -- nobody waits for a header that is refused for good
    refine hkeeps.refused e herror hother (hhash ▸ ?_)
    obtain ⟨b, waiting, hl, hpar, hout, hfree⟩ := hp
    exact ⟨b, waiting, hl, hpar, hheaders ▸ hout, hfree⟩

theorem Asking.onBlocks (h : Asking (fun _ => False) S) {peer : PeerId}
    {blocks : List BlockPayload} {now : ℕ}
    (hgate : ∀ T block rest, Reaches peer now S blocks T (block :: rest) →
      (∃ reason, T.gate block.header = .error reason) → ¬ T.Missing block.hash)
    (hkeeps : ∀ T block, S.Takes peer blocks now T block →
      (T.taken peer block).KeepsAsking block.header) :
    Asking (fun _ => False) (S.onBlocks peer blocks now).1 := by
  -- the request for the block itself is settled
  have hsettled : ∀ {T : DagSync} {hash : BlockHash}, Asking (fun _ => False) T →
      Asking (· = hash) (T.received peer hash) := by
    intro T hash hT
    have hsame := samePool_received (S := T) peer hash
    refine ⟨hsame.dag ▸ hT.valid, fun hl => hT.orphan_key (hsame.orphans ▸ hl),
      fun hl => hT.orphan_parents (hsame.orphans ▸ hl), fun {p} hp => ?_⟩
    rw [requested_received, Finmap.mem_erase]
    by_cases hpe : p = hash
    · exact .inl hpe
    · exact .inr ⟨hpe, (hT.asked (hsame.missing_iff.mp hp)).resolve_left id⟩
  have hunasked : ∀ {T : DagSync} {hash : BlockHash}, Asking (· = hash) T → ¬ T.Missing hash →
      Asking (fun _ => False) T := by
    intro T hash hT hnot
    refine ⟨hT.valid, hT.orphan_key, hT.orphan_parents, fun {p} hp => .inr ?_⟩
    exact (hT.asked hp).resolve_left fun hpe => hnot (hpe ▸ hp)
  refine onBlocks_induct_turn (P := Asking fun _ => False) ?_ ?_ ?_ h
  · intro block rest T _ hholds hT
    refine hunasked (hsettled hT) ?_
    rintro ⟨b, waiting, -, -, hout, hfree⟩
    exact absurd hholds (Bool.eq_false_iff.mp (holds_eq_false_iff.mpr ⟨hout, hfree⟩))
  · intro block rest T hreach _ hrefused hT
    have hsame := samePool_received (S := T) peer block.hash
    have hpeers := onlyPeers_penalise (S := T.received peer block.hash) peer .invalidBlock
      "invalid block"
    refine (hunasked (hsettled hT) fun hmissing => ?_).samePool hpeers.samePool hpeers.requested
    exact hgate T block rest hreach hrefused (hsame.missing_iff.mp hmissing)
  · intro block T htakes hT
    have htaken : Asking (· = block.header.hash) (T.taken peer block) :=
      (hsettled hT).congr (T := T.taken peer block) (hsettled hT).valid rfl rfl fun _ hp => hp
    exact htaken.admitBlock (hkeeps T block htakes) peer now

theorem Asking.onLocalBlock (h : Asking (fun _ => False) S) {block : BlockPayload}
    (hfits : S.ParentsFit block.header) : Asking (fun _ => False) (S.onLocalBlock block).1 := by
  obtain ⟨hash, hok, he⟩ | ⟨e, herror, he⟩ := S.onLocalBlock_cases block
  · rw [he]
    have hsame := samePool_mined (S := S) block
    have hreq : (S.mined block).1.requested = S.requested := (onlyPeers_mined block).requested
    -- what joined was waited for by nobody else's request
    have hjoin : Asking (fun _ => False) (S.mined block).1 :=
      h.join ⟨hash, hok⟩ hsame.dag (fun hl => hsame.orphans ▸ hl)
        (fun hb _ => hsame.orphans ▸ hb) hreq fun _ hex => hex.elim
    exact hjoin.resolveOrphansOf (.start hsame.dag hsame.orphans) hfits _
  · rw [he]
    exact h.congr (T := { S with
      bodies := S.bodies.insert block.hash block.transactions
      dag := (S.dag.addBlock block.header).1 }) (h.valid.addBlock block.header)
      (DagStore.headers_addBlock_of_error herror) rfl fun _ hp => hp

theorem Asking.onDisconnect (h : Asking (fun _ => False) S) {peer : PeerId}
    (hcall : ∀ p owner since, S.Missing p → S.requested.lookup p = some (owner, since) →
      owner ≠ peer) : Asking (fun _ => False) (S.onDisconnect peer) := by
  refine h.congr (T := S.onDisconnect peer) h.valid rfl rfl fun {p} hp hreq => ?_
  obtain ⟨⟨owner, since⟩, hl⟩ := Maps.mem_iff_exists_lookup.mp (hreq.resolve_left id)
  refine .inr (Maps.mem_of_lookup (Maps.lookup_retain_eq_some.mpr ⟨hl, ?_⟩))
  exact decide_eq_true (hcall p owner since hp hl)

theorem Asking.step (h : Asking (fun _ => False) S) {call : SyncCall}
    (hcall : S.ForgetsNothing call) : Asking (fun _ => False) (S.step call) := by
  -- disconnect, tick and the blocks are the calls that can forget
  cases call with
  | connect peer => exact h.congr h.valid rfl rfl fun _ hp => hp
  | disconnect peer => exact h.onDisconnect hcall
  | tick now =>
    have hsame := samePool_onTick (S := S) now
    refine ⟨hsame.dag ▸ h.valid, fun hl => h.orphan_key (hsame.orphans ▸ hl),
      fun hl => h.orphan_parents (hsame.orphans ▸ hl), fun {p} hp => .inr ?_⟩
    exact h.all.onTick hcall p hp
  | localBlock block => exact h.onLocalBlock hcall
  | message peer message now =>
    change Asking (fun _ => False) (S.onMessage peer message now).1
    obtain ⟨blocks, rfl, hready, hstep⟩ | ⟨blocks, rfl, -, hstep⟩ | hother :=
      S.onMessage_cases peer message now
    · rw [hstep]
      exact h.onBlocks (hcall hready).1 (hcall hready).2
    · rw [hstep]
      exact h
    · have hsame := samePool_onMessage (S := S) peer message now hother
      exact h.congr (hsame.dag ▸ h.valid) (by rw [hsame.dag]) hsame.orphans fun _ hp =>
        hp.imp_right (requested_onMessage peer message now hother)

/-- **Nothing is forgotten.** In every run whose calls forget no request, every missing parent is
requested from some peer in every state. -/
theorem asked_throughout (genesis : Header) (k : UInt16) (limit : ℕ) (stored : List Header)
    (gate : Header → Except String Unit) (config : SyncConfig) {calls : List SyncCall}
    (hcalls : Runs.Each step ForgetsNothing
      (new ((DagStore.new genesis k limit).addBlocks stored) gate config) calls) :
    Runs.Throughout step Asked
      (new ((DagStore.new genesis k limit).addBlocks stored) gate config) calls := by
  refine (Runs.Each.throughout (I := Asking fun _ => False) (fun S call h hcall => h.step hcall)
    hcalls ⟨(DagStore.new_valid genesis k limit).addBlocks stored, ?_, ?_, ?_⟩).imp
      fun S h => h.all
  · exact fun hl => absurd (Maps.mem_of_lookup hl) Finmap.notMem_empty
  · exact fun hl => absurd (Maps.mem_of_lookup hl) Finmap.notMem_empty
  · rintro p ⟨b, orphan, hl, -⟩
    exact absurd (Maps.mem_of_lookup hl) Finmap.notMem_empty

end Asking

section Gone

open Sample

/-- A node with room for ten orphans. -/
def listening : DagSync :=
  new ((DagStore.new root 2 10).addBlocks []) (fun _ => .ok ()) ⟨10, 1000, hashOf 0⟩

/-- A peer delivers a block without its parent, and time passes. -/
def parentAwaited : List SyncCall :=
  [.connect 7, .message 7 .verack 0, deliverOne (block 2 [1] 0x2000ffff), .tick 0]

theorem asked_parentAwaited : Runs.Throughout step Asked listening parentAwaited := by
  have hgate : ∀ header, (Runs.after step listening (parentAwaited.take 2)).gate header = .ok () :=
    fun _ => rfl
  have herror : ((Runs.after step listening (parentAwaited.take 2)).dag.addBlock
      (block 2 [1] 0x2000ffff)).2 = .error (.missingParent (hashOf 2) (hashOf 1)) := by
    decide +kernel
  let T := (Runs.after step listening (parentAwaited.take 2)).taken 7 ⟨block 2 [1] 0x2000ffff, []⟩
  have hmissing : T.missingParents (block 2 [1] 0x2000ffff) = [hashOf 1] := by decide +kernel
  have hwanted : T.wanted [hashOf 1] = [hashOf 1] := by decide +kernel
  have hasks : ∀ p ∈ T.missingParents (block 2 [1] 0x2000ffff),
      p ∈ T.wanted (T.missingParents (block 2 [1] 0x2000ffff)) := by
    rw [hmissing, hwanted]
    exact fun p hp => hp
  have hstale : (Runs.after step listening (parentAwaited.take 3)).stale 0 = [] := by
    decide +kernel
  refine asked_throughout root 2 10 [] _ _ ⟨trivial, trivial, fun _ => ⟨?_, ?_⟩, ?_, trivial⟩
  · rintro T payload rest hreach ⟨reason, hrefused⟩
    obtain ⟨rfl, -⟩ := hreach.single
    cases (hgate payload.header).symm.trans hrefused
  · intro T payload htakes
    obtain ⟨rfl, rfl⟩ := htakes.single
    -- no orphan is held yet, and the parent is the only one asked for
    refine ⟨fun e he hother => ?_, fun _ b hb => absurd hb Finmap.notMem_empty, fun p hp => ?_,
      fun _ _ b orphan hl => absurd (Maps.mem_of_lookup hl) Finmap.notMem_empty⟩
    · cases herror.symm.trans he
      exact absurd rfl (hother _ _)
    · exact Or.inr (hasks p hp)
  · intro i p hi
    have hi : ((Runs.after step listening (parentAwaited.take 3)).stale 0)[i]? = some p := hi
    rw [hstale] at hi
    cases hi

/-- Two peers are ready, one of them delivers a block without its parent and leaves. -/
def peerLeaves : List SyncCall :=
  [.connect 7, .message 7 .verack 0, .connect 8, .message 8 .verack 0,
    deliverOne (block 2 [1] 0x2000ffff), .disconnect 7, .tick 0]

/-- **A request is forgotten.** The peer that owes the parent leaves. Another one is ready, but
the tick does not ask it. -/
theorem forgotten_on_disconnect :
    (Runs.after step listening peerLeaves).isReady 8 = true ∧
      ¬ (Runs.after step listening peerLeaves).Asked := by
  have hwaits : ((Runs.after step listening peerLeaves).orphans.lookup (hashOf 2)).map
      (fun orphan => orphan.header.parents) = some [hashOf 1] := by decide +kernel
  have hdag : hashOf 1 ∉ (Runs.after step listening peerLeaves).dag.headers := by decide +kernel
  have horphans : hashOf 1 ∉ (Runs.after step listening peerLeaves).orphans := by decide +kernel
  have hrequested : hashOf 1 ∉ (Runs.after step listening peerLeaves).requested := by
    decide +kernel
  refine ⟨by decide +kernel, fun hasked => hrequested (hasked _ ?_)⟩
  obtain ⟨orphan, hl, hparents⟩ := Option.map_eq_some_iff.mp hwaits
  exact ⟨hashOf 2, orphan, hl, hparents ▸ List.mem_singleton_self _, hdag, horphans⟩

end Gone

end Chainname.DagSync
