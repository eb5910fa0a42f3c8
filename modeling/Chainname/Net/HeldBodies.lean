import Chainname.Library.Runs
import Chainname.Net.Effects

/-!
# Bodies of blocks that are not held

A body is stored before its header is admitted, and nothing ever takes it out again. So the
body of a block outlives the block in four ways: the DAG refuses it when it is delivered, it
is held and later evicted, it is held and refused when its parents have arrived, or it is
mined here and refused.

`ReleasesNothing` says that a call does none of this, in terms of the blocks it brings and
the state it finds them in, and `bodiesHeld_throughout` that bodies then belong to blocks
that are held. With a pool for one orphan, two blocks without their parents are enough to
leave a body behind (`evicted_body_kept`).
-/

namespace Chainname.DagSync

/-- Every body belongs to a block in the DAG or to an orphan. -/
def BodiesHeld (S : DagSync) : Prop := ∀ b ∈ S.bodies, b ∈ S.dag.headers ∨ b ∈ S.orphans

section Conditions

variable [HeaderHash]

/-- The DAG refuses the header for its merge set. -/
def TooLarge (D : DagStore) (header : Header) : Prop :=
  ∃ block limit, (D.addBlock header).2 = .error (.mergesetTooLarge block limit)

/-- When the header joins, no orphan that follows it finds its merge set too large. -/
def FollowersFit (S : DagSync) (header : Header) : Prop :=
  ∀ followers : List Header, (∀ h ∈ followers, ∃ b orphan, S.orphans.lookup b = some orphan ∧
    orphan.header = h) → ∀ b orphan, S.orphans.lookup b = some orphan →
      ¬ TooLarge ((S.dag.addBlock header).1.addBlocks followers) orphan.header

/-- Admitting the header leaves no body behind: only a missing parent can keep it from
joining, there is room to hold it then, and the orphans that follow it fit. -/
structure Keeps (S : DagSync) (header : Header) : Prop where
  joins_or_waits : ∀ e, (S.dag.addBlock header).2 = .error e →
    ∃ block parent, e = .missingParent block parent
  room : (∃ p ∈ header.parents, p ∉ S.dag.headers) →
    S.orphans.keys.card < S.config.maxOrphans ∨ S.orphans = ∅
  fits : S.FollowersFit header

/-- The call leaves no body behind: the delivered blocks that are admitted are kept, and a
block mined here is refused only if it is held already. -/
def ReleasesNothing (S : DagSync) : SyncCall → Prop
  | .message peer (.blocks blocks) now => S.isReady peer = true →
    ∀ T block, S.Takes peer blocks now T block → T.Keeps block.header
  | .localBlock block =>
    (∀ e, (S.dag.addBlock block.header).2 = .error e →
      block.hash ∈ S.dag.headers ∨ block.hash ∈ S.orphans) ∧ S.FollowersFit block.header
  | _ => True

/-- What is in the DAG is refused for that. -/
theorem not_tooLarge_of_mem {D : DagStore} {header : Header} (h : header.hash ∈ D.headers) :
    ¬ TooLarge D header := by
  rintro ⟨block, limit, he⟩
  unfold DagStore.addBlock at he
  rw [if_pos h] at he
  cases he

/-- Without orphans there are none to fit. -/
theorem followersFit_of_empty {S : DagSync} (h : S.orphans.keys = ∅) (header : Header) :
    S.FollowersFit header := by
  intro _ _ b orphan hl
  have hmem : b ∈ S.orphans.keys := Finmap.mem_keys.mpr (Maps.mem_of_lookup hl)
  rw [h] at hmem
  exact absurd hmem (Finset.notMem_empty b)

/-- An orphan that is alone fits if it can join right after the header. -/
theorem followersFit_of_only {S : DagSync} {header follower : Header}
    (honly : ∀ b orphan, S.orphans.lookup b = some orphan → orphan.header = follower)
    (hjoins : ∃ hash, ((S.dag.addBlock header).1.addBlock follower).2 = .ok hash) :
    S.FollowersFit header := by
  intro followers hfollowers b orphan hl
  rw [honly b orphan hl]
  obtain ⟨hash, hok⟩ := hjoins
  cases followers with
  | nil =>
    rintro ⟨block, limit, he⟩
    cases hok.symm.trans he
  | cons first rest =>
    -- it has joined before, and stays
    obtain ⟨c, other, hother, rfl⟩ := hfollowers first List.mem_cons_self
    rw [← honly c other hother] at hok ⊢
    obtain ⟨stored, hstored⟩ := Maps.mem_iff_exists_lookup.mp
      ((DagStore.mem_addBlock_of_ok hok).mpr (Or.inl rfl))
    exact not_tooLarge_of_mem (Maps.mem_of_lookup (DagStore.lookup_addBlocks hstored rest))

end Conditions

section Trail

variable [HeaderHash]

/-- While orphans follow `header`, which has joined `S`: those left are orphans of `S`, and the DAG
has been offered others. -/
structure Trail (S : DagSync) (header : Header) (T : DagSync) : Prop where
  orphans : ∀ {b orphan}, T.orphans.lookup b = some orphan → S.orphans.lookup b = some orphan
  dag : ∃ followers : List Header,
    (∀ h ∈ followers, ∃ b orphan, S.orphans.lookup b = some orphan ∧ orphan.header = h) ∧
      T.dag = (S.dag.addBlock header).1.addBlocks followers

variable {S T : DagSync} {header : Header} {child : BlockHash} {orphan : Orphan}

/-- Where the trail starts. -/
theorem Trail.start (hdag : T.dag = (S.dag.addBlock header).1) (horphans : T.orphans = S.orphans) :
    Trail S header T :=
  ⟨fun hb => horphans ▸ hb, [], fun _ hmem => absurd hmem List.not_mem_nil, hdag⟩

/-- One more orphan has been offered to the DAG. -/
theorem Trail.tried (h : Trail S header T) (hl : T.orphans.lookup child = some orphan) :
    Trail S header (T.tried child orphan) := by
  obtain ⟨followers, hfollowers, hdag⟩ := h.dag
  refine ⟨fun hb => h.orphans (Maps.lookup_erase_eq_some.mp hb).2, followers ++ [orphan.header],
    fun h' hmem => ?_, ?_⟩
  · obtain hmem | hmem := List.mem_append.mp hmem
    · exact hfollowers h' hmem
    · exact ⟨child, orphan, h.orphans hl, (List.mem_singleton.mp hmem).symm⟩
  · change (T.dag.addBlock orphan.header).1 = _
    rw [hdag, DagStore.addBlocks_append]
    rfl

theorem Trail.joined (h : Trail S header T) (hl : T.orphans.lookup child = some orphan) :
    Trail S header (T.joined child orphan).1 := by
  have hsame := (onlyPeers_joined (S := T) child orphan).samePool
  obtain ⟨horphans, followers, hfollowers, hdag⟩ := h.tried hl
  exact ⟨fun hb => horphans (hsame.orphans ▸ hb), followers, hfollowers, hsame.dag.trans hdag⟩

/-- An orphan that lacks no parent and is refused is in the DAG already, or its merge set is too
large for the DAG that has grown by `header` and orphans. -/
theorem Trail.refused (h : Trail S header T) (hvalid : T.dag.Valid)
    (hparents : orphan.header.parents ≠ []) (hcomplete : T.Complete orphan)
    (herror : ∃ e, (T.dag.addBlock orphan.header).2 = .error e) :
    orphan.header.hash ∈ T.dag.headers ∨ ∃ followers : List Header,
      (∀ h ∈ followers, ∃ b orphan, S.orphans.lookup b = some orphan ∧ orphan.header = h) ∧
        TooLarge ((S.dag.addBlock header).1.addBlocks followers) orphan.header := by
  obtain ⟨e, he⟩ := herror
  -- refused although complete: stored already, or its mergeset is too large
  by_cases hin : orphan.header.hash ∈ T.dag.headers
  · exact Or.inl hin
  have hjoin := hvalid.addBlock_of_can_join ⟨hin, hparents, hcomplete⟩
  rw [he] at hjoin
  split at hjoin
  · cases hjoin
  · obtain ⟨followers, hfollowers, hdag⟩ := h.dag
    refine Or.inr ⟨followers, hfollowers, orphan.header.hash, T.dag.mergesetSizeLimit, ?_⟩
    rw [← hdag]
    exact he.trans hjoin

end Trail

section Holding

variable [HeaderHash]

/-- Every body belongs to a block that is held, but for those of `except`. -/
structure Holding (except : BlockHash → Prop) (S : DagSync) : Prop where
  valid : S.dag.Valid
  orphan_key : ∀ {b orphan}, S.orphans.lookup b = some orphan → orphan.header.hash = b
  orphan_parents : ∀ {b orphan}, S.orphans.lookup b = some orphan → orphan.header.parents ≠ []
  held : ∀ {b}, b ∈ S.bodies → except b ∨ b ∈ S.dag.headers ∨ b ∈ S.orphans

variable {except : BlockHash → Prop} {S T : DagSync}

theorem Holding.congr (h : Holding except S) (hvalid : T.dag.Valid)
    (hheaders : T.dag.headers = S.dag.headers) (horphans : T.orphans = S.orphans)
    (hbodies : T.bodies = S.bodies) : Holding except T := by
  obtain ⟨-, h₂, h₃, h₄⟩ := h
  refine ⟨hvalid, ?_, ?_, ?_⟩
  · rw [horphans]
    exact h₂
  · rw [horphans]
    exact h₃
  · rw [hheaders, horphans, hbodies]
    exact h₄

theorem Holding.samePool (h : Holding except S) (hT : S.SamePool T) : Holding except T :=
  h.congr (hT.dag ▸ h.valid) (by rw [hT.dag]) hT.orphans hT.bodies

/-- The DAG grows by a block, and the block may leave the pool. -/
theorem Holding.join (h : Holding except S) {header : Header}
    (hok : ∃ hash, (S.dag.addBlock header).2 = .ok hash)
    (hdag : T.dag = (S.dag.addBlock header).1)
    (horphans : ∀ {b orphan}, T.orphans.lookup b = some orphan →
      S.orphans.lookup b = some orphan)
    (hleave : ∀ {b}, b ∈ S.orphans → b ≠ header.hash → b ∈ T.orphans)
    (hbodies : T.bodies = S.bodies) (hexcept : ∀ b, except b → b = header.hash) :
    Holding (fun _ => False) T := by
  obtain ⟨_, hok⟩ := hok
  have hmem : ∀ {b}, b ∈ T.dag.headers ↔ b = header.hash ∨ b ∈ S.dag.headers := by
    intro b
    rw [hdag]
    exact DagStore.mem_addBlock_of_ok hok
  refine ⟨hdag ▸ h.valid.addBlock header, fun hl => h.orphan_key (horphans hl),
    fun hl => h.orphan_parents (horphans hl), fun {b} hb => Or.inr ?_⟩
  rw [hbodies] at hb
  -- the body of the header joins it in the store; the others stay where they are held
  by_cases hhash : b = header.hash
  · exact Or.inl (hmem.mpr (Or.inl hhash))
  · obtain hex | hin | hin := h.held hb
    · exact absurd (hexcept b hex) hhash
    · exact Or.inl (hmem.mpr (Or.inr hin))
    · exact Or.inr (hleave hin hhash)

/-! ### Resolving -/

/-- While the orphans follow `header`, which has joined `S`: those left are orphans of `S`, and
the DAG has grown by the others. -/
structure Following (S : DagSync) (header : Header) (T : DagSync) : Prop where
  holding : Holding (fun _ => False) T
  orphans : ∀ {b orphan}, T.orphans.lookup b = some orphan → S.orphans.lookup b = some orphan
  dag : ∃ followers : List Header,
    (∀ h ∈ followers, ∃ b orphan, S.orphans.lookup b = some orphan ∧ orphan.header = h) ∧
      T.dag = (S.dag.addBlock header).1.addBlocks followers

variable {header : Header} {child : BlockHash} {orphan : Orphan}

theorem Following.trail (h : Following S header T) : Trail S header T := ⟨h.orphans, h.dag⟩

theorem Following.joined (h : Following S header T) (hl : T.orphans.lookup child = some orphan)
    (hok : ∃ hash, (T.dag.addBlock orphan.header).2 = .ok hash) :
    Following S header (T.joined child orphan).1 := by
  have hkey := h.holding.orphan_key hl
  have hjoin : Holding (fun _ => False) ({ T.tried child orphan with
      accepted := T.accepted ++ [child] } : DagSync) := by
    refine h.holding.join hok rfl (fun hb => (Maps.lookup_erase_eq_some.mp hb).2)
      (fun hb hne => Finmap.mem_erase.mpr ⟨hkey ▸ hne, hb⟩) rfl fun _ hex => hex.elim
  have htrail := h.trail.joined hl
  exact ⟨hjoin.samePool (onlyPeers_joined _ _).samePool, htrail.orphans, htrail.dag⟩

/-- An orphan that lacks no parent and is refused is in the DAG already. -/
theorem Following.refused (h : Following S header T) (hfits : S.FollowersFit header)
    (hl : T.orphans.lookup child = some orphan) (hcomplete : T.Complete orphan)
    (herror : ∃ e, (T.dag.addBlock orphan.header).2 = .error e) :
    Following S header (T.tried child orphan) := by
  have hkey := h.holding.orphan_key hl
  have htrail := h.trail.tried hl
  -- it fits, so it can only have been stored already
  have hin : orphan.header.hash ∈ T.dag.headers := by
    refine (h.trail.refused h.holding.valid (h.holding.orphan_parents hl) hcomplete
      herror).resolve_right ?_
    rintro ⟨followers, hfollowers, hlarge⟩
    exact hfits followers hfollowers child orphan (h.orphans hl) hlarge
  obtain ⟨e, he⟩ := herror
  have hheaders := DagStore.headers_addBlock_of_error he
  refine ⟨⟨h.holding.valid.addBlock _,
    fun hb => h.holding.orphan_key (Maps.lookup_erase_eq_some.mp hb).2,
    fun hb => h.holding.orphan_parents (Maps.lookup_erase_eq_some.mp hb).2, fun {b} hb => ?_⟩,
    htrail.orphans, htrail.dag⟩
  change False ∨ b ∈ (T.dag.addBlock orphan.header).1.headers ∨ b ∈ T.orphans.erase child
  rw [hheaders]
  obtain hfalse | hdag | horphan := h.holding.held hb
  · exact Or.inl hfalse
  · exact Or.inr (Or.inl hdag)
  · -- the child leaves the pool, its header being in the store
    by_cases hchild : b = child
    · exact Or.inr (Or.inl (hchild ▸ hkey ▸ hin))
    · exact Or.inr (Or.inr (Finmap.mem_erase.mpr ⟨hchild, horphan⟩))

/-- **The orphans that follow a block take their bodies with them.** -/
theorem Following.resolveOrphansOf (h : Following S header T) (hfits : S.FollowersFit header)
    (hash : BlockHash) : Holding (fun _ => False) (T.resolveOrphansOf hash).1 := by
  have hrun : Following S header (T.resolveOrphansOf hash).1 := by
    -- every turn keeps what the run of followers has built
    refine resolveOrphansOf_induct (P := fun _ U _ => Following S header U) ?_ ?_ T hash h
    · exact fun _ _ _ _ _ hU => hU
    · intro parent queue U actions children _ hU
      refine tryChildren_induct (P := fun _ V _ _ => Following S header V) ?_ ?_ ?_ ?_
        (Maps.sortedKeys children) (U.released parent) actions queue ?_
      · exact fun _ _ _ _ _ _ hV => hV
      · exact fun _ _ _ _ _ _ _ _ hV => hV
      · exact fun _ _ _ _ _ _ hl _ hok hV => hV.joined hl hok
      · exact fun _ _ _ _ _ _ hl hcomplete herror hV => hV.refused hfits hl hcomplete herror
      · exact ⟨hU.holding.congr hU.holding.valid rfl rfl rfl, hU.orphans, hU.dag⟩
  exact hrun.holding

/-! ### The calls -/

/-- Where nothing is evicted the orphan is added to the others. -/
theorem mem_storeOrphan (hroom : S.orphans.keys.card < S.config.maxOrphans ∨ S.orphans = ∅)
    (header : Header) (sender : PeerId) {b : BlockHash} (hb : b = header.hash ∨ b ∈ S.orphans) :
    b ∈ (S.storeOrphan header.hash header sender).orphans := by
  unfold storeOrphan
  refine Finmap.mem_insert.mpr (hb.imp id fun hin => ?_)
  obtain hlt | hnone := hroom
  · rw [evict_of_room hlt]
    exact hin
  · rw [hnone] at hin
    exact absurd hin Finmap.notMem_empty

/-- A header is admitted whose body has just been stored. -/
theorem Holding.admitBlock {header : Header} (h : Holding (· = header.hash) S)
    (hkeeps : S.Keeps header) (sender : PeerId) (now : ℕ) :
    Holding (fun _ => False) (S.admitBlock header sender now).1 := by
  obtain ⟨hash, hok, he⟩ | ⟨block, parent, herror, he⟩ | ⟨e, herror, hother, he⟩ :=
    S.admit_cases header sender now
  · rw [he]
    have hsame := samePool_relayed (S := S) header sender
    have hjoin : Holding (fun _ => False) (S.relayed header sender).1 :=
      (h.join (T := { S with
          dag := (S.dag.addBlock header).1
          accepted := S.accepted ++ [header.hash] }) ⟨hash, hok⟩ rfl id
        (fun hb _ => hb) rfl fun _ he => he).samePool hsame
    refine Following.resolveOrphansOf (S := S) ⟨hjoin, fun hb => ?_, [], ?_, ?_⟩ hkeeps.fits _
    · rw [hsame.orphans] at hb
      exact hb
    · exact fun _ hmem => absurd hmem List.not_mem_nil
    · exact hsame.dag
  · -- held: there is room, so its body has an orphan to lie with
    rw [he]
    obtain ⟨-, hmissing⟩ := h.valid.missing_of_addBlock herror
    have hheaders := DagStore.headers_addBlock_of_error herror
    have hstored := onlyOrphans_storeOrphan (S := { S with dag := (S.dag.addBlock header).1 })
      header.hash header sender
    have hparents : header.parents ≠ [] := by
      obtain ⟨p, hp, -⟩ := hmissing
      exact List.ne_nil_of_mem hp
    refine Holding.samePool ⟨hstored.dag ▸ h.valid.addBlock header, fun hl => ?_, fun hl => ?_,
      fun {b} hb => Or.inr ?_⟩ (samePool_requestFrom sender _ now)
    · obtain ⟨rfl, rfl⟩ | hold := lookup_of_lookup_storeOrphan hl
      · rfl
      · exact h.orphan_key hold
    · obtain ⟨-, rfl⟩ | hold := lookup_of_lookup_storeOrphan hl
      · exact hparents
      · exact h.orphan_parents hold
    · rw [hstored.bodies] at hb
      rw [hstored.dag]
      change b ∈ (S.dag.addBlock header).1.headers ∨ _
      rw [hheaders]
      have hmem := mem_storeOrphan (S := { S with dag := (S.dag.addBlock header).1 })
        (hkeeps.room hmissing) header sender (b := b)
      obtain hb | hin | hin := h.held hb
      · exact Or.inr (hmem (Or.inl hb))
      · exact Or.inl hin
      · exact Or.inr (hmem (Or.inr hin))
  · -- any other refusal would leave the body behind
    obtain ⟨block, parent, rfl⟩ := hkeeps.joins_or_waits e herror
    exact absurd rfl (hother block parent)

theorem Keeps.congr {header : Header} (h : S.Keeps header) (hdag : T.dag = S.dag)
    (horphans : T.orphans = S.orphans) (hconfig : T.config = S.config) : T.Keeps header := by
  obtain ⟨h₁, h₂, h₃⟩ := h
  refine ⟨?_, ?_, ?_⟩
  · rw [hdag]
    exact h₁
  · rw [hdag, horphans, hconfig]
    exact h₂
  · unfold FollowersFit
    rw [hdag, horphans]
    exact h₃

theorem Holding.onBlocks (h : Holding (fun _ => False) S) {peer : PeerId}
    {blocks : List BlockPayload} {now : ℕ}
    (hkeeps : ∀ T block, S.Takes peer blocks now T block → T.Keeps block.header) :
    Holding (fun _ => False) (S.onBlocks peer blocks now).1 := by
  refine onBlocks_induct (P := Holding fun _ => False) ?_ ?_ ?_ h
  · exact fun hash T hT => hT.samePool (samePool_received peer hash)
  · exact fun hash T hT => hT.samePool (samePool_rebuked peer hash)
  · -- between body and header the hash is the one exception
    intro block T htakes hT
    have hsame := samePool_received (S := T) peer block.hash
    have hreceived := hT.samePool hsame
    have htaken : Holding (· = block.header.hash) (T.taken peer block) := by
      refine ⟨hreceived.valid, hreceived.orphan_key, hreceived.orphan_parents, fun {b} hb => ?_⟩
      have hb : b = block.hash ∨ b ∈ T.bodies := Finmap.mem_insert.mp hb
      rw [← hsame.bodies] at hb
      exact hb.imp id fun hin => (hreceived.held hin).resolve_left id
    exact htaken.admitBlock ((hkeeps T block htakes).congr hsame.dag hsame.orphans hsame.config)
      peer now

theorem Holding.onLocalBlock (h : Holding (fun _ => False) S) {block : BlockPayload}
    (hrefused : ∀ e, (S.dag.addBlock block.header).2 = .error e →
      block.hash ∈ S.dag.headers ∨ block.hash ∈ S.orphans) (hfits : S.FollowersFit block.header) :
    Holding (fun _ => False) (S.onLocalBlock block).1 := by
  -- the source writes the body before it tries the header
  have hstored : Holding (· = block.header.hash)
      ({ S with bodies := S.bodies.insert block.hash block.transactions } : DagSync) := by
    refine ⟨h.valid, h.orphan_key, h.orphan_parents, fun {b} hb => ?_⟩
    have hb : b = block.hash ∨ b ∈ S.bodies := Finmap.mem_insert.mp hb
    exact hb.imp id fun hin => (h.held hin).resolve_left id
  obtain ⟨hash, hok, he⟩ | ⟨e, herror, he⟩ := S.onLocalBlock_cases block
  · rw [he]
    have hsame := samePool_mined (S := S) block
    have hjoin : Holding (fun _ => False) (S.mined block).1 :=
      (hstored.join (T := { S with
          bodies := S.bodies.insert block.hash block.transactions
          dag := (S.dag.addBlock block.header).1
          accepted := S.accepted ++ [block.hash] }) ⟨hash, hok⟩ rfl id
        (fun hb _ => hb) rfl fun _ he => he).samePool hsame
    refine Following.resolveOrphansOf (S := S) ⟨hjoin, fun hb => ?_, [], ?_, ?_⟩ hfits _
    · rw [hsame.orphans] at hb
      exact hb
    · exact fun _ hmem => absurd hmem List.not_mem_nil
    · exact hsame.dag
  · rw [he]
    have hheaders := DagStore.headers_addBlock_of_error herror
    refine ⟨h.valid.addBlock _, h.orphan_key, h.orphan_parents, fun {b} hb => Or.inr ?_⟩
    change b ∈ (S.dag.addBlock block.header).1.headers ∨ b ∈ S.orphans
    rw [hheaders]
    obtain hb | hin | hin := hstored.held hb
    · rw [hb]
      exact hrefused e herror
    · exact Or.inl hin
    · exact Or.inr hin

theorem Holding.step (h : Holding (fun _ => False) S) {call : SyncCall}
    (hcall : S.ReleasesNothing call) : Holding (fun _ => False) (S.step call) := by
  obtain ⟨peer, blocks, now, rfl, hready, hstep⟩ | ⟨block, rfl⟩ | ⟨hsame, -⟩ := S.step_cases call
  · rw [hstep]
    exact h.onBlocks (hcall hready)
  · exact h.onLocalBlock hcall.1 hcall.2
  · exact h.samePool hsame

/-- **When bodies are held.** In every run whose calls leave no body behind, every body belongs
to a block in the DAG or to an orphan. -/
theorem bodiesHeld_throughout (genesis : Header) (k : UInt16) (limit : ℕ) (stored : List Header)
    (gate : Header → Except String Unit) (config : SyncConfig) {calls : List SyncCall}
    (hcalls : Runs.Each step ReleasesNothing
      (new ((DagStore.new genesis k limit).addBlocks stored) gate config) calls) :
    Runs.Throughout step BodiesHeld
      (new ((DagStore.new genesis k limit).addBlocks stored) gate config) calls := by
  refine (Runs.Each.throughout (I := Holding fun _ => False) (fun S call h hcall => h.step hcall)
    hcalls ⟨(DagStore.new_valid genesis k limit).addBlocks stored, ?_, ?_, ?_⟩).imp
      fun S h b hb => (h.held hb).resolve_left id
  · exact fun hl => absurd (Maps.mem_of_lookup hl) Finmap.notMem_empty
  · exact fun hl => absurd (Maps.mem_of_lookup hl) Finmap.notMem_empty
  · exact fun hb => absurd hb Finmap.notMem_empty

end Holding

section Flood

open Sample

/-- A node with a pool for one orphan. -/
def small : DagSync :=
  new ((DagStore.new root 2 10).addBlocks []) (fun _ => .ok ()) ⟨1, 1000, hashOf 0⟩

/-- A peer delivers a header with an empty body. -/
def deliverOne (header : Header) : SyncCall := .message 7 (.blocks [⟨header, []⟩]) 0

/-- A peer delivers a block before its parent, and a block on both is mined here. -/
def orderly : List SyncCall :=
  [.connect 7, .message 7 .verack 0, deliverOne (block 2 [1] 0x2000ffff),
    deliverOne (block 1 [0] 0x2000ffff), .localBlock ⟨block 3 [2] 0x2000ffff, []⟩]

/-- The block that came first waits until its parent is there, and joins with it. -/
theorem bodiesHeld_orderly :
    hashOf 2 ∈ (Runs.after step small (orderly.take 3)).orphans ∧
      hashOf 2 ∈ (Runs.after step small (orderly.take 4)).dag.headers ∧
      Runs.Throughout step BodiesHeld small orderly := by
  refine ⟨by decide +kernel, by decide +kernel, ?_⟩
  -- the first block lacks a parent, for which there is room
  have hwaits : ((Runs.after step small (orderly.take 2)).dag.addBlock
      (block 2 [1] 0x2000ffff)).2 = .error (.missingParent (hashOf 2) (hashOf 1)) := by
    decide +kernel
  have hempty : (Runs.after step small (orderly.take 2)).orphans.keys = ∅ := by decide +kernel
  -- its parent joins, and lets it join
  have hfirst : ((Runs.after step small (orderly.take 3)).dag.addBlock
      (block 1 [0] 0x2000ffff)).2 = .ok (hashOf 1) := by decide +kernel
  have hparent : hashOf 0 ∈ (Runs.after step small (orderly.take 3)).dag.headers := by
    decide +kernel
  have hwaiting : (Runs.after step small (orderly.take 3)).orphans.keys = {hashOf 2} := by
    decide +kernel
  have horphan : ((Runs.after step small (orderly.take 3)).orphans.lookup (hashOf 2)).map
      Orphan.header = some (block 2 [1] 0x2000ffff) := by decide +kernel
  have hfollows : (((Runs.after step small (orderly.take 3)).dag.addBlock
      (block 1 [0] 0x2000ffff)).1.addBlock (block 2 [1] 0x2000ffff)).2 = .ok (hashOf 2) := by
    decide +kernel
  -- the block that is mined joins, and nothing waits
  have hthird : ((Runs.after step small (orderly.take 4)).dag.addBlock
      (block 3 [2] 0x2000ffff)).2 = .ok (hashOf 3) := by decide +kernel
  have hnone : (Runs.after step small (orderly.take 4)).orphans.keys = ∅ := by decide +kernel
  have hsplit : orderly = orderly.take 4 ++ [.localBlock ⟨block 3 [2] 0x2000ffff, []⟩] := rfl
  have hmined : Runs.Each step ReleasesNothing (Runs.after step small (orderly.take 4))
      [.localBlock ⟨block 3 [2] 0x2000ffff, []⟩] := by
    refine ⟨⟨fun e he => ?_, followersFit_of_empty hnone _⟩, trivial⟩
    cases hthird.symm.trans he
  rw [hsplit]
  refine bodiesHeld_throughout root 2 10 [] _ _ (Runs.each_append.mpr ⟨⟨trivial, trivial,
    fun _ T payload htakes => ?_, fun _ T payload htakes => ?_, trivial⟩, hmined⟩)
  · obtain ⟨rfl, rfl⟩ := htakes.single
    refine ⟨fun e he => ⟨hashOf 2, hashOf 1, ?_⟩, fun _ => Or.inr rfl,
      followersFit_of_empty hempty _⟩
    exact Except.error.inj (he.symm.trans hwaits)
  · obtain ⟨rfl, rfl⟩ := htakes.single
    refine ⟨fun e he => ?_, ?_, followersFit_of_only (fun b orphan hl => ?_) ⟨hashOf 2, hfollows⟩⟩
    · cases hfirst.symm.trans he
    · rintro ⟨p, hp, hmissing⟩
      rw [List.mem_singleton.mp hp] at hmissing
      exact absurd hparent hmissing
    · have hmem : b ∈ (Runs.after step small (orderly.take 3)).orphans.keys :=
        Finmap.mem_keys.mpr (Maps.mem_of_lookup hl)
      rw [hwaiting, Finset.mem_singleton] at hmem
      subst hmem
      change (Runs.after step small (orderly.take 3)).orphans.lookup (hashOf 2) = _ at hl
      rw [hl] at horphan
      exact Option.some.inj horphan

/-- A peer delivers two blocks without their parent. -/
def twoOrphans : List SyncCall :=
  [.connect 7, .message 7 .verack 0, deliverOne (block 2 [1] 0x2000ffff),
    deliverOne (block 3 [1] 0x2000ffff)]

/-- **A body without a block.** The second orphan evicts the first, whose body stays. -/
theorem evicted_body_kept :
    hashOf 2 ∈ (Runs.after step small twoOrphans).bodies ∧
      hashOf 2 ∉ (Runs.after step small twoOrphans).dag.headers ∧
      hashOf 2 ∉ (Runs.after step small twoOrphans).orphans ∧
      ¬ Runs.Throughout step BodiesHeld small twoOrphans := by
  have hbody : hashOf 2 ∈ (Runs.after step small twoOrphans).bodies := by decide +kernel
  have hdag : hashOf 2 ∉ (Runs.after step small twoOrphans).dag.headers := by decide +kernel
  have horphans : hashOf 2 ∉ (Runs.after step small twoOrphans).orphans := by decide +kernel
  refine ⟨hbody, hdag, horphans, fun h => ?_⟩
  have hlast := h.last
  generalize Runs.after step small twoOrphans = S at hbody hdag horphans hlast
  exact (hlast _ hbody).elim hdag horphans

end Flood

end Chainname.DagSync
