import Chainname.Net.Handshake

/-!
# Bodies and the headers that commit to them

A header commits to its block's transactions by `txs_root`; the transactions travel beside it.
Two nodes that hold a block agree on its transactions if each holds a body with that root.

Nothing on the way from a message to the DAG compares the two. What a node does guarantee is
that the body it stores is the one that came with the header it admits, also for blocks that
wait as orphans: if every body it stores has the root its header names, then so has every body
in the DAG (`bodies_agree`). The root is a parameter.
-/

namespace Chainname.DagSync

section Invariant

variable (root : List Bytes → B256)

/-- A body is stored for the block, and its root is the one the header names. -/
def Committed (S : DagSync) (block : BlockHash) (header : Header) : Prop :=
  ∃ body, S.bodies.lookup block = some body ∧ root body = header.txsRoot

/-- Blocks and orphans, but for the blocks of `own`, have the bodies their headers commit to. -/
structure Agrees [HeaderHash] (own : BlockHash → Prop) (S : DagSync) : Prop where
  orphan_key : ∀ {b orphan}, S.orphans.lookup b = some orphan → orphan.header.hash = b
  dag : ∀ {b header}, S.dag.headers.lookup b = some header → ¬ own b → S.Committed root b header
  orphans : ∀ {b orphan}, S.orphans.lookup b = some orphan → ¬ own b →
    S.Committed root b orphan.header

variable {root} [HeaderHash] {own : BlockHash → Prop} {S T : DagSync}

omit [HeaderHash] in
theorem Committed.congr {b : BlockHash} {header : Header} (h : S.Committed root b header)
    (hbodies : T.bodies.lookup b = S.bodies.lookup b) : T.Committed root b header := by
  obtain ⟨body, hbody, hroot⟩ := h
  exact ⟨body, hbodies.trans hbody, hroot⟩

/-- A header joins with its body in place, and orphans go. -/
theorem Agrees.join (h : S.Agrees root own) (header : Header)
    (hdag : ∀ {b header'}, T.dag.headers.lookup b = some header' →
      b = header.hash ∧ header' = header ∨ S.dag.headers.lookup b = some header')
    (horphans : ∀ {b orphan}, T.orphans.lookup b = some orphan →
      b = header.hash ∧ orphan.header = header ∨ S.orphans.lookup b = some orphan)
    (hbodies : T.bodies = S.bodies)
    (hbody : ¬ own header.hash → S.Committed root header.hash header) : T.Agrees root own := by
  have hcongr : ∀ {b header'}, S.Committed root b header' → T.Committed root b header' :=
    fun hc => hc.congr (by rw [hbodies])
  -- the new header under its own hash; the others as they were
  refine ⟨fun hl => ?_, fun hl hown => ?_, fun hl hown => ?_⟩
  · obtain ⟨rfl, hheader⟩ | hold := horphans hl
    · rw [hheader]
    · exact h.orphan_key hold
  · obtain ⟨rfl, rfl⟩ | hold := hdag hl
    · exact hcongr (hbody hown)
    · exact hcongr (h.dag hold hown)
  · obtain ⟨rfl, hheader⟩ | hold := horphans hl
    · rw [hheader]
      exact hcongr (hbody hown)
    · exact hcongr (h.orphans hold hown)

/-- Orphans go. -/
theorem Agrees.shrink (h : S.Agrees root own) (hdag : T.dag.headers = S.dag.headers)
    (horphans : ∀ {b orphan}, T.orphans.lookup b = some orphan → S.orphans.lookup b = some orphan)
    (hbodies : T.bodies = S.bodies) : T.Agrees root own where
  orphan_key hl := h.orphan_key (horphans hl)
  dag hl hown := (h.dag (hdag ▸ hl) hown).congr (by rw [hbodies])
  orphans hl hown := (h.orphans (horphans hl) hown).congr (by rw [hbodies])

theorem Agrees.samePool (h : S.Agrees root own) (hT : S.SamePool T) : T.Agrees root own :=
  h.shrink (by rw [hT.dag]) (fun hl => hT.orphans ▸ hl) hT.bodies

/-- More blocks may be exempt. -/
theorem Agrees.weaken {own' : BlockHash → Prop} (h : S.Agrees root own)
    (hown : ∀ b, own b → own' b) : S.Agrees root own' where
  orphan_key := h.orphan_key
  dag hl hb := h.dag hl fun hold => hb (hown _ hold)
  orphans hl hb := h.orphans hl fun hold => hb (hown _ hold)

end Invariant

/-! ### What keeps bodies and headers together -/

section Steps

variable [HeaderHash] {root : List Bytes → B256} {own : BlockHash → Prop} {S : DagSync}

/-- An orphan that joins keeps its body. -/
theorem Agrees.joined (h : S.Agrees root own) {child : BlockHash} {orphan : Orphan}
    (hl : S.orphans.lookup child = some orphan) : (S.joined child orphan).1.Agrees root own := by
  have hkey := h.orphan_key hl
  have hjoin : ({ S.tried child orphan with accepted := S.accepted ++ [child] } : DagSync).Agrees
      root own := by
    refine h.join orphan.header (fun {b header'} hb => ?_) (fun {b orphan'} hb => ?_)
      rfl fun hown => ?_
    · exact DagStore.stored_addBlock hb
    · exact Or.inr (Maps.lookup_erase_eq_some.mp hb).2
    · rw [hkey] at hown ⊢
      exact h.orphans hl hown
  exact hjoin.samePool (onlyPeers_joined child orphan).samePool

theorem Agrees.tried (h : S.Agrees root own) {child : BlockHash} {orphan : Orphan}
    (herror : ∃ e, (S.dag.addBlock orphan.header).2 = .error e) :
    (S.tried child orphan).Agrees root own := by
  obtain ⟨e, herror⟩ := herror
  exact h.shrink (DagStore.headers_addBlock_of_error herror)
    (fun hb => (Maps.lookup_erase_eq_some.mp hb).2) rfl

theorem Agrees.resolveOrphansOf (h : S.Agrees root own) (hash : BlockHash) :
    (S.resolveOrphansOf hash).1.Agrees root own := by
  refine resolveOrphansOf_induct (P := fun _ T _ => T.Agrees root own) ?_ ?_ S hash h
  · exact fun _ _ _ _ _ hT => hT
  · intro parent queue T actions children _ hT
    refine tryChildren_induct (P := fun _ U _ _ => U.Agrees root own) ?_ ?_ ?_ ?_
      (Maps.sortedKeys children) (T.released parent) actions queue ?_
    · exact fun _ _ _ _ _ _ hU => hU
    · exact fun _ _ _ _ _ _ _ _ hU => hU
    · exact fun _ _ _ _ _ _ hl _ _ hU => hU.joined hl
    · exact fun _ _ _ _ _ _ _ _ herror hU => hU.tried herror
    · exact hT.shrink rfl id rfl

/-- **A validated header is admitted with its body in place.** -/
theorem Agrees.admitBlock (h : S.Agrees root own) {header : Header} {sender : PeerId} {now : ℕ}
    (hbody : ¬ own header.hash → S.Committed root header.hash header) :
    (S.admitBlock header sender now).1.Agrees root own := by
  obtain ⟨hash, -, he⟩ | ⟨block, parent, herror, he⟩ | ⟨e, herror, -, he⟩ :=
    S.admit_cases header sender now
  · rw [he]
    have hjoin : ({ S with
        dag := (S.dag.addBlock header).1
        accepted := S.accepted ++ [header.hash] } : DagSync).Agrees root own :=
      h.join header DagStore.stored_addBlock Or.inr rfl hbody
    have hrelayed : (S.relayed header sender).1.Agrees root own :=
      hjoin.samePool (samePool_relayed header sender)
    exact hrelayed.resolveOrphansOf header.hash
  · -- held: it enters the pool, not the store
    rw [he]
    have hstored := onlyOrphans_storeOrphan (S := { S with dag := (S.dag.addBlock header).1 })
      header.hash header sender
    refine (h.join header (fun {b header'} hb => ?_) (fun {b orphan} hb => ?_)
      hstored.bodies hbody).samePool (samePool_requestFrom sender _ now)
    · rw [hstored.dag] at hb
      exact Or.inr (DagStore.headers_addBlock_of_error herror ▸ hb)
    · obtain ⟨heq, rfl⟩ | hold := lookup_of_lookup_storeOrphan hb
      · exact Or.inl ⟨heq, rfl⟩
      · exact Or.inr hold
  · -- refused otherwise: only the memo table changes
    rw [he]
    exact h.shrink (DagStore.headers_addBlock_of_error herror) id rfl

/-- A body is stored for a block that is not held, so that no other body is disturbed. -/
theorem Agrees.taken (h : S.Agrees root own) {peer : PeerId} {block : BlockPayload}
    (hnew : block.hash ∉ S.dag.headers) (hfree : block.hash ∉ S.orphans) :
    (S.taken peer block).Agrees root own := by
  have hsame : S.SamePool (S.received peer block.hash) := samePool_received peer block.hash
  have hbodies : ∀ {b : BlockHash}, b ≠ block.hash →
      (S.taken peer block).bodies.lookup b = S.bodies.lookup b := fun hne =>
    (Maps.lookup_insert _ _ _ _).trans (if_neg hne)
  have hdag : (S.taken peer block).dag = S.dag := hsame.dag
  have horphans : (S.taken peer block).orphans = S.orphans := hsame.orphans
  -- the body is written under a hash that is neither stored nor held
  refine ⟨fun hl => ?_, fun {b header} hl hown => ?_, fun {b orphan} hl hown => ?_⟩
  · rw [horphans] at hl
    exact h.orphan_key hl
  · rw [hdag] at hl
    refine (h.dag hl hown).congr (hbodies ?_)
    rintro rfl
    exact hnew (Maps.mem_of_lookup hl)
  · rw [horphans] at hl
    refine (h.orphans hl hown).congr (hbodies ?_)
    rintro rfl
    exact hfree (Maps.mem_of_lookup hl)

/-- **Delivered blocks keep bodies and headers together** if each that is admitted carries the
transactions its header commits to. -/
theorem Agrees.onBlocks (h : S.Agrees root own) {peer : PeerId} {blocks : List BlockPayload}
    {now : ℕ} (hmatch : ∀ T block, S.Takes peer blocks now T block →
      root block.transactions = block.header.txsRoot) :
    (S.onBlocks peer blocks now).1.Agrees root own := by
  refine onBlocks_induct (P := Agrees root own) ?_ ?_ ?_ h
  · exact fun hash T hT => hT.samePool (samePool_received peer hash)
  · exact fun hash T hT => hT.samePool (samePool_rebuked peer hash)
  · intro block T htakes hT
    obtain ⟨-, hnew, hfree⟩ := htakes.facts
    refine (hT.taken hnew hfree).admitBlock fun _ => ?_
    have hstored : (T.taken peer block).bodies.lookup block.header.hash
        = some block.transactions := Finmap.lookup_insert _
    exact ⟨block.transactions, hstored, hmatch T block htakes⟩

/-- A locally mined block is exempt from now on. -/
theorem Agrees.onLocalBlock (h : S.Agrees root own) (block : BlockPayload) :
    (S.onLocalBlock block).1.Agrees root fun b => own b ∨ b = block.hash := by
  -- the body is written first, whoever else holds the hash
  have hstored : ({ S with bodies := S.bodies.insert block.hash block.transactions } :
      DagSync).Agrees root fun b => own b ∨ b = block.hash := by
    have hcongr : ∀ {b header}, S.Committed root b header → b ≠ block.hash →
        ({ S with bodies := S.bodies.insert block.hash block.transactions } :
          DagSync).Committed root b header :=
      fun hc hne => hc.congr ((Maps.lookup_insert _ _ _ _).trans (if_neg hne))
    refine ⟨h.orphan_key, fun hl hown => ?_, fun hl hown => ?_⟩
    · exact hcongr (h.dag hl fun hold => hown (Or.inl hold)) fun he => hown (Or.inr he)
    · exact hcongr (h.orphans hl fun hold => hown (Or.inl hold)) fun he => hown (Or.inr he)
  obtain ⟨hash, -, he⟩ | ⟨e, herror, he⟩ := S.onLocalBlock_cases block
  · rw [he]
    have hjoin : ({ S with
        bodies := S.bodies.insert block.hash block.transactions
        dag := (S.dag.addBlock block.header).1
        accepted := S.accepted ++ [block.hash] } : DagSync).Agrees root
        fun b => own b ∨ b = block.hash :=
      hstored.join block.header DagStore.stored_addBlock Or.inr rfl
        fun hown => absurd (Or.inr rfl) hown
    have hmined : (S.mined block).1.Agrees root fun b => own b ∨ b = block.hash :=
      hjoin.samePool (samePool_mined block)
    exact hmined.resolveOrphansOf block.hash
  · rw [he]
    exact hstored.shrink (DagStore.headers_addBlock_of_error herror) id rfl

end Steps

/-! ### Runs -/

section Runs

variable [HeaderHash] (root : List Bytes → B256)

/-- The blocks that did not come from a peer: those the node began with, and those mined here. -/
def Own (dag : DagStore) (calls : List SyncCall) (b : BlockHash) : Prop :=
  b ∈ dag.headers ∨ ∃ block, SyncCall.localBlock block ∈ calls ∧ b = block.hash

/-- Two bodies with one root. -/
def Collide (body body' : List Bytes) : Prop := body ≠ body' ∧ root body = root body'

/-- Every block in the DAG that came from peers has a stored body with the root its header
names. -/
def BodiesAgree (dag : DagStore) (session : DagSync × List SyncCall) : Prop :=
  ∀ b header, session.1.dag.headers.lookup b = some header → ¬ Own dag session.2 b →
    session.1.Committed root b header

/-- Every delivered block that is admitted carries the transactions its header commits to. -/
def DeliversCommitted (S : DagSync) (call : SyncCall) : Prop :=
  ∀ peer blocks now, call = .message peer (.blocks blocks) now → S.isReady peer = true →
    ∀ T block, S.Takes peer blocks now T block → root block.transactions = block.header.txsRoot

variable {root}

theorem own_concat {dag : DagStore} {calls : List SyncCall} {call : SyncCall} {b : BlockHash} :
    Own dag (calls ++ [call]) b ↔
      Own dag calls b ∨ ∃ block, call = .localBlock block ∧ b = block.hash := by
  unfold Own
  simp only [List.mem_append, List.mem_singleton]
  grind

/-- One call keeps bodies and headers together. -/
theorem Agrees.record {dag : DagStore} {session : DagSync × List SyncCall}
    (h : session.1.Agrees root (Own dag session.2)) {call : SyncCall}
    (hcall : DeliversCommitted root session.1 call) :
    (Runs.record step session call).1.Agrees root (Own dag (session.2 ++ [call])) := by
  have hweaken : ∀ {T : DagSync}, T.Agrees root (Own dag session.2) →
      T.Agrees root (Own dag (session.2 ++ [call])) :=
    fun hT => hT.weaken fun b hb => own_concat.mpr (Or.inl hb)
  -- a frame that delivers, a block of our own, or a call that touches no body
  obtain ⟨peer, blocks, now, rfl, hready, hstep⟩ | ⟨block, rfl⟩ | ⟨hsame, -⟩ :=
    session.1.step_cases call
  · change (session.1.step (.message peer (.blocks blocks) now)).Agrees root _
    rw [hstep]
    exact hweaken (h.onBlocks (hcall peer blocks now rfl hready))
  · refine (h.onLocalBlock block).weaken fun b hb => own_concat.mpr ?_
    exact hb.imp id fun he => ⟨block, rfl, he⟩
  · exact hweaken (h.samePool hsame)

/-- The invariant of every run whose deliveries are committed to. -/
theorem agrees_throughout {dag : DagStore} {gate : Header → Except String Unit}
    {config : SyncConfig} {calls : List SyncCall}
    (hcalls : Runs.Each step (DeliversCommitted root) (new dag gate config) calls) :
    Runs.Throughout (Runs.record step) (fun session => session.1.Agrees root (Own dag session.2))
      (new dag gate config, []) calls := by
  refine Runs.Each.throughout (fun session call h hcall => h.record hcall)
    ((Runs.each_record _ _).mpr hcalls) ⟨fun hl => ?_, fun hl hown => ?_, fun hl => ?_⟩
  · exact absurd (Maps.mem_of_lookup hl) Finmap.notMem_empty
  · exact absurd (Or.inl (Maps.mem_of_lookup hl)) hown
  · exact absurd (Maps.mem_of_lookup hl) Finmap.notMem_empty

/-- **When bodies agree.** In every run in which every delivered block that is admitted carries
the transactions its header commits to, every block from peers has a stored body with that
root. Two nodes of this kind that hold the same block hold the same body of it, or two bodies
on which the root collides. -/
theorem bodies_agree {dag : DagStore} {gate gate' : Header → Except String Unit}
    {config config' : SyncConfig} {calls calls' : List SyncCall}
    (hcalls : Runs.Each step (DeliversCommitted root) (new dag gate config) calls)
    (hcalls' : Runs.Each step (DeliversCommitted root) (new dag gate' config') calls') :
    Runs.Throughout (Runs.record step) (BodiesAgree root dag) (new dag gate config, []) calls ∧
      ∀ b header, ¬ Own dag calls b → ¬ Own dag calls' b →
        (Runs.after step (new dag gate config) calls).dag.headers.lookup b = some header →
        (Runs.after step (new dag gate' config') calls').dag.headers.lookup b = some header →
        ∃ body body',
          (Runs.after step (new dag gate config) calls).bodies.lookup b = some body ∧
          (Runs.after step (new dag gate' config') calls').bodies.lookup b = some body' ∧
          (body = body' ∨ Collide root body body') := by
  have hfirst := agrees_throughout hcalls
  have hsecond := agrees_throughout hcalls'
  refine ⟨hfirst.imp fun session h => ?_, ?_⟩
  · intro b header hl hown
    exact h.dag hl hown
  intro b header hown hown' hl hl'
  have hlast := hfirst.last
  have hlast' := hsecond.last
  rw [Runs.after_record] at hlast hlast'
  obtain ⟨body, hbody, hroot⟩ := hlast.dag hl hown
  obtain ⟨body', hbody', hroot'⟩ := hlast'.dag hl' hown'
  refine ⟨body, body', hbody, hbody', ?_⟩
  -- two bodies under one root: equal, or a collision
  by_cases hbodies : body = body'
  · exact Or.inl hbodies
  · exact Or.inr ⟨hbodies, hroot.trans hroot'.symm⟩

end Runs

section Swapped

open Sample

/-- The root of a block without transactions. -/
def emptyRoot : B256 := 0x56e81f171bcc55a6ff8345e692c0f86e5b48e01b996cadc001622fb5e363b421

/-- A root that tells a block without transactions from any other. -/
def sampleRoot (transactions : List Bytes) : B256 := if transactions = [] then emptyRoot else 0

/-- A block without transactions, delivered with these. -/
def payload (transactions : List Bytes) : BlockPayload :=
  ⟨{ block 1 [0] 0x2000ffff with txsRoot := emptyRoot }, transactions⟩

/-- A peer connects, shakes hands and delivers the block. -/
def delivery (transactions : List Bytes) : List SyncCall :=
  [.connect 7, .message 7 (.version protocolVersion (hashOf 0) []) 0,
    .message 7 (.blocks [payload transactions]) 0]

/-- A peer connects, shakes hands and delivers blocks one by one. -/
def oneByOne (blocks : List BlockPayload) : List SyncCall :=
  .connect 7 :: .message 7 (.version protocolVersion (hashOf 0) []) 0 ::
    blocks.map fun block => .message 7 (.blocks [block]) 0

/-- A block with a transaction, and one on top of it. -/
def transfer : BlockPayload := ⟨block 1 [0] 0x2000ffff, [[1]]⟩

def onTransfer : BlockPayload := ⟨{ block 2 [1] 0x2000ffff with txsRoot := emptyRoot }, []⟩

/-- Blocks under their own roots are deliveries that are committed to. -/
theorem deliversCommitted_oneByOne {root : List Bytes → B256} {blocks : List BlockPayload}
    (h : ∀ block ∈ blocks, root block.transactions = block.header.txsRoot) (S : DagSync) :
    Runs.Each step (DeliversCommitted root) S (oneByOne blocks) := by
  refine Runs.each_of_mem (fun T call hmem => ?_) S
  rintro peer payloads now rfl _ U payload htakes
  -- of the messages only those after the handshake hold blocks
  obtain ⟨delivered, hblock, rfl, rfl, rfl⟩ :
      ∃ delivered ∈ blocks, 7 = peer ∧ [delivered] = payloads ∧ 0 = now := by
    simpa [oneByOne] using hmem
  rw [htakes.single.2]
  exact h delivered hblock

/-- Two nodes hold a block with a transaction. One was given it before the block on top of it, the
other after, where that block was an orphan until then. -/
theorem bodies_agree_reordered :
    Runs.Throughout (Runs.record step) (BodiesAgree sampleRoot (DagStore.new root 2 10))
        (lone, []) (oneByOne [onTransfer, transfer]) ∧
      ∃ body body',
        (Runs.after step lone (oneByOne [onTransfer, transfer])).bodies.lookup (hashOf 1)
          = some body ∧
        (Runs.after step lone (oneByOne [transfer, onTransfer])).bodies.lookup (hashOf 1)
          = some body' ∧
        (body = body' ∨ Collide sampleRoot body body') := by
  have hroots : ∀ delivered ∈ [transfer, onTransfer],
      sampleRoot delivered.transactions = delivered.header.txsRoot := by decide +kernel
  -- neither node mines block 1, nor did the store begin with it
  have hforeign : ∀ blocks, ¬ Own (DagStore.new root 2 10) (oneByOne blocks) (hashOf 1) := by
    rintro blocks (hmem | ⟨mined, hmem, -⟩)
    · exact absurd hmem (by decide +kernel)
    · simp [oneByOne] at hmem
  have hreordered : Runs.Each step (DeliversCommitted sampleRoot) lone
      (oneByOne [onTransfer, transfer]) :=
    deliversCommitted_oneByOne
      (fun delivered hmem => hroots delivered ((List.Perm.swap _ _ []).subset hmem)) lone
  obtain ⟨hall, hagree⟩ := bodies_agree hreordered (deliversCommitted_oneByOne hroots lone)
  exact ⟨hall, hagree (hashOf 1) transfer.header (hforeign _) (hforeign _) (by decide +kernel)
    (by decide +kernel)⟩

/-- **A body nobody checks.** One node is given the block with its own body, the other with a
body of one transaction; both store what they are given under the same hash. -/
theorem swapped_body_stored :
    ¬ BodiesAgree sampleRoot (DagStore.new root 2 10)
        (Runs.after step lone (delivery [[1]]), delivery [[1]]) ∧
      hashOf 1 ∈ (Runs.after step lone (delivery [])).dag.headers ∧
      hashOf 1 ∈ (Runs.after step lone (delivery [[1]])).dag.headers ∧
      (Runs.after step lone (delivery [])).bodies.lookup (hashOf 1) = some [] ∧
      (Runs.after step lone (delivery [[1]])).bodies.lookup (hashOf 1) = some [[1]] := by
  have hbody : (Runs.after step lone (delivery [[1]])).bodies.lookup (hashOf 1) = some [[1]] := by
    decide +kernel
  have hheader : (Runs.after step lone (delivery [[1]])).dag.headers.lookup (hashOf 1)
      = some (payload [[1]]).header := by decide +kernel
  refine ⟨fun h => ?_, by decide +kernel, Maps.mem_of_lookup hheader, by decide +kernel, hbody⟩
  -- block 1 was delivered, not mined
  have hown : ¬ Own (DagStore.new root 2 10) (delivery [[1]]) (hashOf 1) := by
    rintro (hmem | ⟨block, hmem, -⟩)
    · exact absurd hmem (by decide +kernel)
    · simp [delivery] at hmem
  obtain ⟨body, hl, hroot⟩ := h _ _ hheader hown
  obtain rfl : [[1]] = body := Option.some.inj (hbody.symm.trans hl)
  exact absurd hroot (by decide +kernel)

end Swapped

end Chainname.DagSync
