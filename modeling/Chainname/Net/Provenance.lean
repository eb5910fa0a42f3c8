import Chainname.Net.Actions

/-!
# Where blocks come from

Let `P` tell the blocks, with their bodies, that somebody has issued, and let a hash name at
most one of them. A node that is only handed such blocks holds only such blocks, each with the
body it was issued with, and hands out only such blocks: synchronisation neither makes up a block
nor tears a header and a body apart (`Genuine.step`, `Genuine.honest_call`).
-/

namespace Chainname

/-- What an honest peer says: it speaks our version, on our network, and its blocks are issued. -/
def Message.Honest (genesis : BlockHash) (P : BlockPayload → Prop) : Message → Prop
  | .version v network _ => v = protocolVersion ∧ network = genesis
  | .blocks batch => ∀ block ∈ batch, P block
  | _ => True

/-- What is sent is honest. -/
def Action.Honest (genesis : BlockHash) (P : BlockPayload → Prop) : Action → Prop
  | .send _ message => message.Honest genesis P
  | .disconnect _ _ => True

theorem Action.plain_honest (genesis : BlockHash) (P : BlockPayload → Prop) :
    Action.Plain (Action.Honest genesis P) :=
  ⟨fun _ => trivial, fun _ _ => trivial, fun _ => trivial, fun _ _ => trivial, fun _ _ => trivial,
    fun _ _ => trivial⟩

/-- A hash names at most one block of `P`. -/
def Names [HeaderHash] (P : BlockPayload → Prop) : Prop :=
  ∀ block block', P block → P block' → block.hash = block'.hash → block = block'

/-- A call hands in issued blocks only. -/
def SyncCall.Honest (genesis : BlockHash) (P : BlockPayload → Prop) : SyncCall → Prop
  | .message _ m _ => m.Honest genesis P
  | .localBlock block => P block
  | _ => True

namespace DagSync

/-- A header with the body that is stored for a hash. -/
def heldBlock (S : DagSync) (hash : BlockHash) (header : Header) : BlockPayload :=
  ⟨header, (S.bodies.lookup hash).getD []⟩

/-- Every block that is held is issued, body included. -/
structure Genuine [HeaderHash] (P : BlockPayload → Prop) (S : DagSync) : Prop where
  dag_key : ∀ {b header}, S.dag.headers.lookup b = some header → header.hash = b
  orphan_key : ∀ {b orphan}, S.orphans.lookup b = some orphan → orphan.header.hash = b
  dag : ∀ {b header}, S.dag.headers.lookup b = some header → P (S.heldBlock b header)
  orphans : ∀ {b orphan}, S.orphans.lookup b = some orphan → P (S.heldBlock b orphan.header)

section Invariant

variable [HeaderHash] {P : BlockPayload → Prop} {S T : DagSync}

omit [HeaderHash] in
theorem heldBlock_congr {b : BlockHash} (h : T.bodies.lookup b = S.bodies.lookup b)
    (header : Header) : T.heldBlock b header = S.heldBlock b header := by
  unfold heldBlock
  rw [h]

/-- A header joins or is held, with its body in place, and orphans go. -/
theorem Genuine.join (h : Genuine P S) (header : Header)
    (hdag : ∀ {b header'}, T.dag.headers.lookup b = some header' →
      b = header.hash ∧ header' = header ∨ S.dag.headers.lookup b = some header')
    (horphans : ∀ {b orphan}, T.orphans.lookup b = some orphan →
      b = header.hash ∧ orphan.header = header ∨ S.orphans.lookup b = some orphan)
    (hbodies : T.bodies = S.bodies) (hbody : P (S.heldBlock header.hash header)) : Genuine P T := by
  -- the bodies are the same, so is the block each header comes with
  have hsame : ∀ b header', T.heldBlock b header' = S.heldBlock b header' := fun b header' =>
    heldBlock_congr (by rw [hbodies]) header'
  refine ⟨fun hl => ?_, fun hl => ?_, fun hl => ?_, fun hl => ?_⟩
  · obtain ⟨rfl, rfl⟩ | hold := hdag hl
    · rfl
    · exact h.dag_key hold
  · obtain ⟨rfl, hheader⟩ | hold := horphans hl
    · rw [hheader]
    · exact h.orphan_key hold
  · rw [hsame]
    obtain ⟨rfl, rfl⟩ | hold := hdag hl
    · exact hbody
    · exact h.dag hold
  · rw [hsame]
    obtain ⟨rfl, hheader⟩ | hold := horphans hl
    · rw [hheader]
      exact hbody
    · exact h.orphans hold

/-- Nothing joins, and orphans may go. -/
theorem Genuine.shrink (h : Genuine P S) (hdag : T.dag.headers = S.dag.headers)
    (horphans : ∀ {b orphan}, T.orphans.lookup b = some orphan → S.orphans.lookup b = some orphan)
    (hbodies : T.bodies = S.bodies) : Genuine P T := by
  have hsame : ∀ b header', T.heldBlock b header' = S.heldBlock b header' := fun b header' =>
    heldBlock_congr (by rw [hbodies]) header'
  refine ⟨fun hl => ?_, fun hl => ?_, fun hl => ?_, fun hl => ?_⟩
  · exact h.dag_key (hdag ▸ hl)
  · exact h.orphan_key (horphans hl)
  · rw [hsame]
    exact h.dag (hdag ▸ hl)
  · rw [hsame]
    exact h.orphans (horphans hl)

theorem Genuine.samePool (h : Genuine P S) (hT : S.SamePool T) : Genuine P T :=
  h.shrink (by rw [hT.dag]) (fun hl => hT.orphans ▸ hl) hT.bodies

theorem heldBlock_store (S : DagSync) (block : BlockPayload) :
    ({ S with bodies := S.bodies.insert block.hash block.transactions } : DagSync).heldBlock
      block.header.hash block.header = block := by
  unfold heldBlock
  show (⟨block.header, ((S.bodies.insert block.hash block.transactions).lookup block.hash).getD []⟩ :
    BlockPayload) = block
  rw [Maps.lookup_insert, if_pos rfl]
  rfl

/-- Storing the body of an issued block changes no body of a held one, since a hash names one
block only. -/
theorem Genuine.store (h : Genuine P S) (hP : Names P) {block : BlockPayload} (hblock : P block) :
    Genuine P { S with bodies := S.bodies.insert block.hash block.transactions } := by
  have hbody : ∀ {b header}, header.hash = b → P (S.heldBlock b header) →
      ({ S with bodies := S.bodies.insert block.hash block.transactions } : DagSync).heldBlock b header
        = S.heldBlock b header := by
    -- another block under this hash would be the same block
    intro b header hkey hold
    by_cases hb : b = block.hash
    · have hsame : block = S.heldBlock b header := hP _ _ hblock hold (hb.symm.trans hkey.symm)
      have hheader : block.header = header := congrArg BlockPayload.header hsame
      rw [← hsame, hb, ← hheader]
      exact heldBlock_store S block
    · exact heldBlock_congr ((Maps.lookup_insert _ _ _ _).trans (if_neg hb)) header
  refine ⟨h.dag_key, h.orphan_key, fun hl => ?_, fun hl => ?_⟩
  · rw [hbody (h.dag_key hl) (h.dag hl)]
    exact h.dag hl
  · rw [hbody (h.orphan_key hl) (h.orphans hl)]
    exact h.orphans hl

/-- More may be issued. -/
theorem Genuine.weaken {Q : BlockPayload → Prop} (h : Genuine P S) (hPQ : ∀ block, P block → Q block) :
    Genuine Q S :=
  ⟨h.dag_key, h.orphan_key, fun hl => hPQ _ (h.dag hl), fun hl => hPQ _ (h.orphans hl)⟩

end Invariant

/-! ### Calls -/

section Calls

variable [HeaderHash] {P : BlockPayload → Prop} {S : DagSync}

/-- An orphan that joins keeps its body. -/
theorem Genuine.joined (h : Genuine P S) {child : BlockHash} {orphan : Orphan}
    (hl : S.orphans.lookup child = some orphan) : Genuine P (S.joined child orphan).1 := by
  have hkey := h.orphan_key hl
  have hjoin : Genuine P
      ({ S.tried child orphan with accepted := S.accepted ++ [child] } : DagSync) := by
    refine h.join orphan.header (fun hb => DagStore.stored_addBlock hb)
      (fun hb => Or.inr (Maps.lookup_erase_eq_some.mp hb).2) rfl ?_
    rw [hkey]
    exact h.orphans hl
  exact hjoin.samePool (onlyPeers_joined child orphan).samePool

theorem Genuine.resolveOrphansOf (h : Genuine P S) (hash : BlockHash) :
    Genuine P (S.resolveOrphansOf hash).1 := by
  refine resolveOrphansOf_induct (P := fun _ T _ => Genuine P T) ?_ ?_ S hash h
  · exact fun _ _ _ _ _ hT => hT
  · intro parent queue T actions children _ hT
    refine tryChildren_induct (P := fun _ U _ _ => Genuine P U) ?_ ?_ ?_ ?_
      (Maps.sortedKeys children) (T.released parent) actions queue ?_
    · exact fun _ _ _ _ _ _ hU => hU
    · exact fun _ _ _ _ _ _ _ _ hU => hU
    · -- an orphan that joins carries the block it was held with
      exact fun _ _ _ _ _ _ hl _ _ hU => hU.joined hl
    · rintro _ _ _ _ _ _ _ _ ⟨e, herror⟩ hU
      exact hU.shrink (DagStore.headers_addBlock_of_error herror)
        (fun hb => (Maps.lookup_erase_eq_some.mp hb).2) rfl
    · exact hT.shrink rfl id rfl

/-- A header whose body is in place is admitted. -/
theorem Genuine.admitBlock (h : Genuine P S) {header : Header} {sender : PeerId} {now : ℕ}
    (hbody : P (S.heldBlock header.hash header)) : Genuine P (S.admitBlock header sender now).1 := by
  obtain ⟨hash, -, he⟩ | ⟨block, parent, herror, he⟩ | ⟨e, herror, -, he⟩ :=
    S.admit_cases header sender now
  · rw [he]
    have hjoin : Genuine P ({ S with
        dag := (S.dag.addBlock header).1
        accepted := S.accepted ++ [header.hash] } : DagSync) :=
      h.join header DagStore.stored_addBlock Or.inr rfl hbody
    have hrelayed : Genuine P (S.relayed header sender).1 :=
      hjoin.samePool (samePool_relayed header sender)
    exact hrelayed.resolveOrphansOf header.hash
  · rw [he]
    have hstored := onlyOrphans_storeOrphan (S := { S with dag := (S.dag.addBlock header).1 })
      header.hash header sender
    refine (h.join header (fun {b header'} hb => ?_) (fun {b orphan} hb => ?_)
      hstored.bodies hbody).samePool (samePool_requestFrom sender _ now)
    · rw [hstored.dag] at hb
      exact Or.inr (DagStore.headers_addBlock_of_error herror ▸ hb)
    · obtain ⟨heq, rfl⟩ | hold := lookup_of_lookup_storeOrphan hb
      · exact Or.inl ⟨heq, rfl⟩
      · exact Or.inr hold
  · rw [he]
    exact h.shrink (DagStore.headers_addBlock_of_error herror) id rfl

theorem Genuine.onBlocks (h : Genuine P S) (hP : Names P) {peer : PeerId}
    {blocks : List BlockPayload} (hblocks : ∀ block ∈ blocks, P block) (now : ℕ) :
    Genuine P (S.onBlocks peer blocks now).1 := by
  refine onBlocks_induct (P := Genuine P) ?_ ?_ ?_ h
  · exact fun hash T hT => hT.samePool (samePool_received peer hash)
  · exact fun hash T hT => hT.samePool (samePool_rebuked peer hash)
  · -- the body taken in is the one its frame delivered
    rintro block T ⟨rest, hreach, -⟩ hT
    have hblock : P block := hblocks block (hreach.subset List.mem_cons_self)
    have hsame : T.SamePool (T.received peer block.hash) := samePool_received peer block.hash
    have htaken : T.taken peer block = { T.received peer block.hash with
        bodies := (T.received peer block.hash).bodies.insert block.hash block.transactions } := by
      unfold taken
      rw [hsame.bodies]
    rw [htaken]
    refine ((hT.samePool hsame).store hP hblock).admitBlock ?_
    rw [heldBlock_store]
    exact hblock

theorem Genuine.onLocalBlock (h : Genuine P S) (hP : Names P) {block : BlockPayload}
    (hblock : P block) : Genuine P (S.onLocalBlock block).1 := by
  have hstored := h.store hP hblock
  obtain ⟨hash, -, he⟩ | ⟨e, herror, he⟩ := S.onLocalBlock_cases block
  · rw [he]
    have hjoin : Genuine P ({ S with
        bodies := S.bodies.insert block.hash block.transactions
        dag := (S.dag.addBlock block.header).1
        accepted := S.accepted ++ [block.hash] } : DagSync) :=
      hstored.join block.header DagStore.stored_addBlock Or.inr rfl
        ((heldBlock_store S block).symm ▸ hblock)
    have hmined : Genuine P (S.mined block).1 := hjoin.samePool (samePool_mined block)
    exact hmined.resolveOrphansOf block.hash
  · rw [he]
    exact hstored.shrink (DagStore.headers_addBlock_of_error herror) id rfl

/-- **A node that is handed issued blocks holds issued blocks.** -/
theorem Genuine.step (h : Genuine P S) (hP : Names P) {call : SyncCall} {genesis : BlockHash}
    (hcall : call.Honest genesis P) : Genuine P (S.step call) := by
  obtain ⟨peer, blocks, now, rfl, -, hstep⟩ | ⟨block, rfl⟩ | ⟨hsame, -⟩ := S.step_cases call
  · rw [hstep]
    exact h.onBlocks hP hcall now
  · exact h.onLocalBlock hP hcall
  · exact h.samePool hsame

/-- The blocks that answer a request are issued. -/
theorem Genuine.asked (h : Genuine P S) (hashes : List BlockHash) :
    ∀ block ∈ S.asked hashes, P block := by
  intro block hmem
  obtain ⟨hash, -, hsome⟩ := List.mem_filterMap.mp hmem
  obtain ⟨header, hl, rfl⟩ := Option.map_eq_some_iff.mp hsome
  exact h.dag hl

/-- **And it hands out issued blocks**, whatever is asked of it. -/
theorem Genuine.honest_call (h : Genuine P S) (call : SyncCall) :
    ∀ action ∈ (S.call call).2, action.Honest S.config.genesis P :=
  all_call (Action.plain_honest S.config.genesis P) (fun _ => ⟨rfl, rfl⟩)
    (fun _ hashes _ _ _ => h.asked hashes) fun _ _ _ _ _ _ => trivial

/-- A node at genesis holds genesis alone. -/
theorem genuine_new {genesis : Header} {k : UInt16} {limit : ℕ} {gate : Header → Except String Unit}
    {config : SyncConfig} (hgenesis : P ⟨genesis, []⟩) :
    Genuine P (new (DagStore.new genesis k limit) gate config) := by
  have hone : ∀ {b header}, (DagStore.new genesis k limit).headers.lookup b = some header →
      b = genesis.hash ∧ header = genesis := by
    intro b header hl
    exact DagStore.lookup_new hl
  -- the genesis comes with an empty body, and no orphan is held
  refine ⟨fun hl => ?_, fun hl => ?_, fun hl => ?_, fun hl => ?_⟩
  · obtain ⟨rfl, rfl⟩ := hone hl
    rfl
  · exact absurd (Maps.mem_of_lookup hl) Finmap.notMem_empty
  · obtain ⟨rfl, rfl⟩ := hone hl
    exact hgenesis
  · exact absurd (Maps.mem_of_lookup hl) Finmap.notMem_empty

end Calls

end DagSync

end Chainname
