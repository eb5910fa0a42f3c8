import Chainname.Net.Provenance

/-!
# Blocks that have joined

The node above the network layer learns of new blocks by draining the list of accepted ones. This
list is exact: whatever a call does, it appends each block that joins the DAG, once, after those
of its parents that join in the same call, and nothing else (`Joins.step`). A node that drains it
after every call is told of every block but genesis exactly once, parents first
(`Drained.exact_throughout`).
-/

namespace Chainname

namespace DagSync

/-- Takes and clears the list of accepted blocks. -/
def drainAccepted (S : DagSync) : DagSync × List BlockHash := ({ S with accepted := [] }, S.accepted)

/-- The blocks of `new` have joined the DAG, in this order, and are reported. -/
structure Joins (S T : DagSync) (new : List BlockHash) : Prop where
  accepted : T.accepted = S.accepted ++ new
  mem : ∀ b, b ∈ T.dag.headers ↔ b ∈ S.dag.headers ∨ b ∈ new
  kept : ∀ {b header}, S.dag.headers.lookup b = some header → T.dag.headers.lookup b = some header
  fresh : ∀ b ∈ new, b ∉ S.dag.headers
  nodup : new.Nodup
  /-- Parents come first. -/
  parents : ∀ {pre b post header}, new = pre ++ b :: post → T.dag.headers.lookup b = some header →
    ∀ p ∈ header.parents, p ∈ S.dag.headers ∨ p ∈ pre
  /-- If nothing joins, the DAG is the same but for its memo table. -/
  same : new = [] → T.dag = { S.dag with reachability := T.dag.reachability }

variable {S T U : DagSync} {new new' : List BlockHash}

/-- A call that leaves the DAG and the list alone. -/
theorem Joins.of_eq (hdag : T.dag = S.dag) (haccepted : T.accepted = S.accepted) : S.Joins T [] where
  accepted := by rw [haccepted, List.append_nil]
  mem b := by rw [hdag, List.mem_nil_iff, or_false]
  kept hl := hdag ▸ hl
  fresh _ h := absurd h List.not_mem_nil
  nodup := List.nodup_nil
  parents h := absurd h.symm (List.append_ne_nil_of_right_ne_nil _ (List.cons_ne_nil _ _))
  same _ := by rw [hdag]

theorem SamePool.joins (h : S.SamePool T) : S.Joins T [] := .of_eq h.dag h.accepted

theorem Joins.trans (h : S.Joins T new) (h' : T.Joins U new') : S.Joins U (new ++ new') where
  accepted := by rw [h'.accepted, h.accepted, List.append_assoc]
  mem b := by rw [h'.mem, h.mem, List.mem_append, or_assoc]
  kept hl := h'.kept (h.kept hl)
  fresh b hb := by
    rcases List.mem_append.mp hb with hb | hb
    · exact h.fresh b hb
    · exact fun hold => h'.fresh b hb ((h.mem b).mpr (Or.inl hold))
  nodup := List.nodup_append.mpr ⟨h.nodup, h'.nodup, fun b hb b' hb' hne =>
    h'.fresh b' hb' ((h.mem b').mpr (Or.inr (hne ▸ hb)))⟩
  parents := by
    intro pre b post header hsplit hl p hp
    rcases List.append_eq_append_iff.mp hsplit with ⟨mid, rfl, hrest⟩ | ⟨mid, hfirst, hrest⟩
    · -- `b` joins in the second part
      obtain hold | hpre := h'.parents hrest hl p hp
      · rw [List.mem_append]
        exact ((h.mem p).mp hold).imp id Or.inl
      · exact Or.inr (List.mem_append_right _ hpre)
    · cases mid with
      | nil =>
        rw [List.append_nil] at hfirst
        subst hfirst
        have hrest : new' = [] ++ b :: post := by rw [List.nil_append]; exact hrest.symm
        obtain hold | hpre := h'.parents hrest hl p hp
        · exact (h.mem p).mp hold
        · exact absurd hpre List.not_mem_nil
      | cons first mid =>
        obtain ⟨rfl, rfl⟩ := List.cons.inj hrest
        -- `b` has joined in the first part, and its header is the same
        have hmem : b ∈ T.dag.headers := (h.mem b).mpr (Or.inr (hfirst ▸ by simp))
        obtain ⟨header', hl'⟩ := Maps.mem_iff_exists_lookup.mp hmem
        obtain rfl := Option.some.inj (hl.symm.trans (h'.kept hl'))
        exact h.parents hfirst hl' p hp
  same hnil := by
    obtain ⟨hnew, hnew'⟩ := List.append_eq_nil_iff.mp hnil
    rw [h'.same hnew', h.same hnew]

section Calls

variable [HeaderHash]

/-- A header that joins is reported. -/
theorem Joins.of_addBlock {header : Header} {hash : BlockHash}
    (hok : (S.dag.addBlock header).2 = .ok hash) (hdag : T.dag = (S.dag.addBlock header).1)
    (haccepted : T.accepted = S.accepted ++ [header.hash]) : S.Joins T [header.hash] where
  accepted := haccepted
  mem b := by
    rw [hdag, DagStore.mem_addBlock_of_ok hok, List.mem_singleton]
    exact or_comm
  kept hl := hdag ▸ DagStore.lookup_addBlock hl header
  fresh b hb := List.mem_singleton.mp hb ▸ (DagStore.fresh_of_addBlock_ok hok).not_mem
  nodup := List.nodup_singleton _
  -- one block: nothing stands before it in the list
  parents := by
    intro pre b post header' hsplit hl p hp
    have hnil : pre = [] ∧ b = header.hash := by
      cases pre with
      | nil => exact ⟨rfl, (List.cons.inj hsplit).1.symm⟩
      | cons first pre => exact absurd (List.cons.inj hsplit).2.symm (by simp)
    obtain ⟨-, rfl⟩ := hnil
    have hfresh := DagStore.fresh_of_addBlock_ok hok
    rw [hdag] at hl
    obtain ⟨-, rfl⟩ | hold := DagStore.stored_addBlock hl
    · exact Or.inl (hfresh.parent_mem p hp)
    · exact absurd (Maps.mem_of_lookup hold) hfresh.not_mem
  same h := absurd h (List.cons_ne_nil _ _)

/-- A header that is refused is not. -/
theorem Joins.of_error {header : Header} {e : DagError}
    (herror : (S.dag.addBlock header).2 = .error e) (hdag : T.dag = (S.dag.addBlock header).1)
    (haccepted : T.accepted = S.accepted) : S.Joins T [] where
  accepted := by rw [haccepted, List.append_nil]
  mem b := by
    rw [hdag, Finmap.mem_def, DagStore.headers_addBlock_of_error herror, ← Finmap.mem_def,
      List.mem_nil_iff, or_false]
  kept hl := hdag ▸ DagStore.lookup_addBlock hl header
  fresh _ h := absurd h List.not_mem_nil
  nodup := List.nodup_nil
  parents h := absurd h.symm (List.append_ne_nil_of_right_ne_nil _ (List.cons_ne_nil _ _))
  same _ := by rw [hdag]; exact DagStore.addBlock_of_error herror

/-- Blocks and orphans are held under their hashes, whatever the bodies. -/
def HashKeyed (S : DagSync) : Prop := Genuine (fun _ => True) S

theorem HashKeyed.congr (h : S.HashKeyed) (hdag : T.dag = S.dag) (horphans : T.orphans = S.orphans) :
    T.HashKeyed :=
  ⟨fun hl => h.dag_key (hdag ▸ hl), fun hl => h.orphan_key (horphans ▸ hl), fun _ => trivial,
    fun _ => trivial⟩

theorem Joins.joined (hkeys : S.HashKeyed) {child : BlockHash} {orphan : Orphan}
    (hl : S.orphans.lookup child = some orphan)
    (hok : ∃ hash, (S.dag.addBlock orphan.header).2 = .ok hash) :
    S.Joins (S.joined child orphan).1 [child] := by
  obtain ⟨hash, hok⟩ := hok
  obtain rfl := hkeys.orphan_key hl
  have hsame := (onlyPeers_joined (S := S) orphan.header.hash orphan).samePool
  exact .of_addBlock hok hsame.dag hsame.accepted

/-- **What resolving orphans reports.** -/
theorem Joins.resolveOrphansOf (hkeys : S.HashKeyed) (hash : BlockHash) :
    ∃ new, S.Joins (S.resolveOrphansOf hash).1 new := by
  refine (resolveOrphansOf_induct (P := fun _ T _ => T.HashKeyed ∧ ∃ new, S.Joins T new) ?_ ?_ S
    hash ⟨hkeys, [], .of_eq rfl rfl⟩).2
  · exact fun _ _ _ _ _ hT => hT
  · rintro parent queue T actions children - ⟨hT, new, hnew⟩
    refine tryChildren_induct (P := fun _ U _ _ => U.HashKeyed ∧ ∃ new, S.Joins U new) ?_ ?_ ?_ ?_
      (Maps.sortedKeys children) (T.released parent) actions queue
      ⟨hT.congr rfl rfl, _, hnew.trans (.of_eq rfl rfl)⟩
    · exact fun _ _ _ _ _ _ hU => hU
    · exact fun _ _ _ _ _ _ _ _ hU => hU
    · -- a child that joins is appended to `accepted`; one that is refused adds nothing
      rintro child _ U _ _ orphan hl - hok ⟨hU, new, hnew⟩
      exact ⟨Genuine.joined hU hl, _, hnew.trans (Joins.joined hU hl hok)⟩
    · rintro child _ U _ _ orphan hl - ⟨e, herror⟩ ⟨hU, new, hnew⟩
      refine ⟨Genuine.shrink hU (DagStore.headers_addBlock_of_error herror)
        (fun hb => (Maps.lookup_erase_eq_some.mp hb).2) rfl, _,
        hnew.trans (.of_error herror rfl rfl)⟩

theorem Joins.admitBlock (hkeys : S.HashKeyed) (header : Header) (sender : PeerId) (now : ℕ) :
    ∃ new, S.Joins (S.admitBlock header sender now).1 new := by
  obtain ⟨hash, hok, he⟩ | ⟨block, parent, herror, he⟩ | ⟨e, herror, -, he⟩ :=
    S.admit_cases header sender now
  · rw [he]
    have hsame := samePool_relayed (S := S) header sender
    have hjoin : HashKeyed { S with
        dag := (S.dag.addBlock header).1
        accepted := S.accepted ++ [header.hash] } :=
      Genuine.join hkeys header DagStore.stored_addBlock Or.inr rfl trivial
    obtain ⟨new, hnew⟩ := Joins.resolveOrphansOf (Genuine.samePool hjoin hsame) header.hash
    exact ⟨_, (Joins.of_addBlock hok hsame.dag hsame.accepted).trans hnew⟩
  · -- held as an orphan: nothing joins
    rw [he]
    have hstored := onlyOrphans_storeOrphan (S := { S with dag := (S.dag.addBlock header).1 })
      header.hash header sender
    have hsame := samePool_requestFrom (S := DagSync.storeOrphan
      { S with dag := (S.dag.addBlock header).1 } header.hash header sender) sender
      (missingParents { S with dag := (S.dag.addBlock header).1 } header) now
    exact ⟨[], .of_error herror (hsame.dag.trans hstored.dag)
      (hsame.accepted.trans hstored.accepted)⟩
  · rw [he]
    exact ⟨[], .of_error herror rfl rfl⟩

theorem Joins.onBlocks (hkeys : S.HashKeyed) (peer : PeerId) (blocks : List BlockPayload) (now : ℕ) :
    (S.onBlocks peer blocks now).1.HashKeyed ∧ ∃ new, S.Joins (S.onBlocks peer blocks now).1 new := by
  refine onBlocks_induct (P := fun T => T.HashKeyed ∧ ∃ new, S.Joins T new) ?_ ?_ ?_
    ⟨hkeys, [], .of_eq rfl rfl⟩
  · rintro hash T ⟨hT, new, hnew⟩
    have hsame := samePool_received (S := T) peer hash
    exact ⟨hT.congr hsame.dag hsame.orphans, _, hnew.trans hsame.joins⟩
  · rintro hash T ⟨hT, new, hnew⟩
    have hsame := samePool_rebuked (S := T) peer hash
    exact ⟨hT.congr hsame.dag hsame.orphans, _, hnew.trans hsame.joins⟩
  · -- a block taken in, by way of the header it carries
    rintro block T - ⟨hT, new, hnew⟩
    have hsame := samePool_received (S := T) peer block.hash
    have htaken : (T.taken peer block).HashKeyed := hT.congr hsame.dag hsame.orphans
    have hjoins : T.Joins (T.taken peer block) [] := .of_eq hsame.dag hsame.accepted
    obtain ⟨new', hnew'⟩ := Joins.admitBlock htaken block.header peer now
    exact ⟨Genuine.admitBlock htaken trivial, _, (hnew.trans hjoins).trans hnew'⟩

theorem Joins.onLocalBlock (hkeys : S.HashKeyed) (block : BlockPayload) :
    (S.onLocalBlock block).1.HashKeyed ∧ ∃ new, S.Joins (S.onLocalBlock block).1 new := by
  have hstored : HashKeyed { S with bodies := S.bodies.insert block.hash block.transactions } :=
    hkeys.congr rfl rfl
  obtain ⟨hash, hok, he⟩ | ⟨e, herror, he⟩ := S.onLocalBlock_cases block
  · rw [he]
    have hsame := samePool_mined (S := S) block
    -- our own block joins as the header does, its body written first
    have hjoin : HashKeyed { S with
        bodies := S.bodies.insert block.hash block.transactions
        dag := (S.dag.addBlock block.header).1
        accepted := S.accepted ++ [block.hash] } :=
      Genuine.join hstored block.header DagStore.stored_addBlock Or.inr rfl trivial
    have hmined : (S.mined block).1.HashKeyed := Genuine.samePool hjoin hsame
    obtain ⟨new, hnew⟩ := Joins.resolveOrphansOf hmined block.hash
    exact ⟨Genuine.resolveOrphansOf hmined _, _,
      (Joins.of_addBlock hok hsame.dag hsame.accepted).trans hnew⟩
  · rw [he]
    exact ⟨Genuine.shrink hstored (DagStore.headers_addBlock_of_error herror) id rfl, [],
      .of_error herror rfl rfl⟩

/-- **The list of accepted blocks is exact.** -/
theorem Joins.step (hkeys : S.HashKeyed) (call : SyncCall) :
    (S.step call).HashKeyed ∧ ∃ new, S.Joins (S.step call) new := by
  obtain ⟨peer, blocks, now, -, -, hstep⟩ | ⟨block, rfl⟩ | ⟨hsame, -⟩ := S.step_cases call
  · rw [hstep]
    exact Joins.onBlocks hkeys peer blocks now
  · exact Joins.onLocalBlock hkeys block
  · exact ⟨hkeys.congr hsame.dag hsame.orphans, [], hsame.joins⟩

end Calls

/-! ### Runs that drain the list -/

/-- The list may have been drained before. -/
theorem Joins.relist (h : S.Joins T new) (hashes : List BlockHash) :
    Joins { S with accepted := hashes } { T with accepted := hashes ++ new } new :=
  ⟨rfl, h.mem, h.kept, h.fresh, h.nodup, h.parents, h.same⟩

/-- A node and all that has been drained from it so far. -/
structure Drained where
  sync : DagSync
  reported : List BlockHash

/-- What may happen to such a node: a call, or its list is drained. -/
inductive DrainCall where
  | call (call : SyncCall)
  | drain

namespace Drained

/-- One step. -/
def step [HeaderHash] (n : Drained) : DrainCall → Drained
  | .call call => { n with sync := n.sync.step call }
  | .drain => ⟨n.sync.drainAccepted.1, n.reported ++ n.sync.drainAccepted.2⟩

/-- All that has been reported or is about to be. -/
def known (n : Drained) : List BlockHash := n.reported ++ n.sync.accepted

/-- The blocks that have joined since `start` are known, once each, parents first. -/
structure Exact (start : DagStore) (n : Drained) : Prop where
  nodup : n.known.Nodup
  mem_iff : ∀ b, b ∈ n.sync.dag.headers ↔ b ∈ start.headers ∨ b ∈ n.known
  fresh : ∀ b ∈ n.known, b ∉ start.headers
  parents : ∀ pre b post header, n.known = pre ++ b :: post →
    n.sync.dag.headers.lookup b = some header →
    ∀ p ∈ header.parents, p ∈ start.headers ∨ p ∈ pre

/-- The node as it would be had its list never been drained. -/
def undrained (n : Drained) : DagSync := { n.sync with accepted := n.known }

variable [HeaderHash]

/-- Draining moves what is known, and nothing else. -/
theorem joins_step {start : DagSync} {n : Drained} (hkeys : n.sync.HashKeyed)
    (h : start.Joins n.undrained n.known) (call : DrainCall) :
    (n.step call).sync.HashKeyed ∧ start.Joins (n.step call).undrained (n.step call).known := by
  -- a call lengthens what is known; a drain only moves it
  cases call with
  | call call =>
    obtain ⟨hkeys', new, hnew⟩ := Joins.step hkeys call
    have hknown : (n.step (.call call)).known = n.known ++ new := by
      show n.reported ++ (n.sync.step call).accepted = _
      rw [hnew.accepted, ← List.append_assoc]
      rfl
    refine ⟨hkeys', ?_⟩
    have hstep := h.trans (hnew.relist n.known)
    rw [← hknown] at hstep
    exact hstep
  | drain =>
    have hknown : (n.step .drain).known = n.known := by
      show (n.reported ++ n.sync.accepted) ++ [] = _
      rw [List.append_nil]
      rfl
    refine ⟨hkeys.congr rfl rfl, ?_⟩
    show start.Joins { n.sync with accepted := (n.step .drain).known } _
    rw [hknown]
    exact h

/-- **Every block that joins is reported exactly once, after its parents**, however calls and
drains interleave, and nothing but blocks that have joined is reported. -/
theorem exact_throughout (genesis : Header) (k : UInt16) (limit : ℕ)
    (gate : Header → Except String Unit) (config : SyncConfig) (calls : List DrainCall) :
    Runs.Throughout step (Exact (DagStore.new genesis k limit))
      ⟨DagSync.new (DagStore.new genesis k limit) gate config, []⟩ calls := by
  refine (Runs.throughout_of_step
    (I := fun n => n.sync.HashKeyed ∧
      (DagSync.new (DagStore.new genesis k limit) gate config).Joins n.undrained n.known)
    (fun n call h => joins_step h.1 h.2 call)
    ⟨genuine_new trivial, Joins.of_eq rfl rfl⟩).imp fun n h => ?_
  exact ⟨h.2.nodup, h.2.mem, h.2.fresh, fun _ _ _ _ hsplit hl => h.2.parents hsplit hl⟩

end Drained

end DagSync

end Chainname
