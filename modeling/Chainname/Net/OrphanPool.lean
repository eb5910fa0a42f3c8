import Chainname.Library.Runs
import Chainname.Net.Effects

/-!
# The orphan pool

Four collections describe the blocks that wait for parents: the orphans by hash, their order
of arrival, and for each missing parent those that wait on it, next to the DAG itself.
`OrphanPool` says how they fit together between calls.

Inside the loops they fit less well. A block that has just joined the DAG is still named by
`waiting_on` until its turn in the queue comes, and an orphan whose last parent has joined
is still held until it is tried. `PoolLoop` is the invariant of the loops: it holds of the
queue of blocks that have joined and the orphans about to be tried. Two moves keep it, an
orphan that lacks no parent leaves (`PoolLoop.drop`), and the DAG grows by a block that is no
orphan (`PoolLoop.grow`). When the queue is empty it is `OrphanPool` again.
-/

namespace Chainname

namespace DagSync

/-- `b` is among those that wait on `p`. -/
def Waits (waitingOn : Map BlockHash (Finset BlockHash)) (p b : BlockHash) : Prop :=
  ∃ set, waitingOn.lookup p = some set ∧ b ∈ set

/-- How the orphans, their order, what waits on what and the DAG fit together. -/
structure OrphanPool (S : DagSync) : Prop where
  /-- The order lists each orphan once. -/
  order_nodup : S.orphanOrder.Nodup
  /-- The order lists the orphans and nothing else. -/
  mem_order : ∀ {b}, b ∈ S.orphanOrder ↔ b ∈ S.orphans
  bounded : S.orphans.keys.card ≤ S.config.maxOrphans
  /-- No orphan is in the DAG. -/
  outside : ∀ {b}, b ∈ S.orphans → b ∉ S.dag.headers
  /-- Held orphans wait on their missing parents, and on nothing else. -/
  waits_iff : ∀ {p b}, Waits S.waitingOn p b ↔ ∃ orphan, S.orphans.lookup b = some orphan ∧
    p ∈ orphan.header.parents ∧ p ∉ S.dag.headers
  /-- Somebody waits on every parent that is listed. -/
  waiting_nonempty : ∀ {p set}, S.waitingOn.lookup p = some set → set.Nonempty
  /-- No orphan is left behind that could join. -/
  lacks : ∀ {b orphan}, S.orphans.lookup b = some orphan →
    ∃ p ∈ orphan.header.parents, p ∉ S.dag.headers

section Loop

variable [HeaderHash] (known : Header → Prop)

/-- The invariant of the loops: the blocks of `queue` have joined the DAG but have not been
followed up, and the orphans of `children` are about to be tried. All headers are `known`. -/
structure PoolLoop (queue children : List BlockHash) (S : DagSync) : Prop where
  valid : S.dag.Valid
  known_orphan : ∀ {b orphan}, S.orphans.lookup b = some orphan →
    known orphan.header ∧ orphan.header.hash = b
  order_nodup : S.orphanOrder.Nodup
  mem_order : ∀ {b}, b ∈ S.orphanOrder ↔ b ∈ S.orphans
  bounded : S.orphans.keys.card ≤ S.config.maxOrphans
  outside : ∀ {b}, b ∈ S.orphans → b ∉ S.dag.headers
  waits_iff : ∀ {p b}, p ∉ queue → (Waits S.waitingOn p b ↔
    ∃ orphan, S.orphans.lookup b = some orphan ∧ p ∈ orphan.header.parents ∧ p ∉ S.dag.headers)
  waits_queue : ∀ {p b orphan}, p ∈ queue → S.orphans.lookup b = some orphan →
    p ∈ orphan.header.parents → Waits S.waitingOn p b
  waiting_nonempty : ∀ {p set}, S.waitingOn.lookup p = some set → set.Nonempty
  lacks : ∀ {b orphan}, S.orphans.lookup b = some orphan →
    b ∈ children ∨ ∃ p ∈ orphan.header.parents, p ∉ S.dag.headers ∨ p ∈ queue
  queue_mem : ∀ {p}, p ∈ queue → p ∈ S.dag.headers
  queue_nodup : queue.Nodup

variable {known} {queue children : List BlockHash} {S T : DagSync}

/-- With nothing left to do the collections fit together. -/
theorem PoolLoop.orphanPool (h : PoolLoop known [] [] S) : S.OrphanPool where
  order_nodup := h.order_nodup
  mem_order := h.mem_order
  bounded := h.bounded
  outside := h.outside
  waits_iff := h.waits_iff List.not_mem_nil
  waiting_nonempty := h.waiting_nonempty
  lacks hl := by
    obtain hb | ⟨p, hp, hout | hin⟩ := h.lacks hl
    · exact absurd hb List.not_mem_nil
    · exact ⟨p, hp, hout⟩
    · exact absurd hin List.not_mem_nil

theorem PoolLoop.congr (h : PoolLoop known queue children S) (hvalid : T.dag.Valid)
    (hheaders : T.dag.headers = S.dag.headers) (hconfig : T.config = S.config)
    (horphans : T.orphans = S.orphans) (horder : T.orphanOrder = S.orphanOrder)
    (hwaiting : T.waitingOn = S.waitingOn) : PoolLoop known queue children T where
  valid := hvalid
  known_orphan := by rw [horphans]; exact h.known_orphan
  order_nodup := by rw [horder]; exact h.order_nodup
  mem_order := by rw [horder, horphans]; exact h.mem_order
  bounded := by rw [horphans, hconfig]; exact h.bounded
  outside := by rw [horphans, hheaders]; exact h.outside
  waits_iff := by rw [horphans, hheaders, hwaiting]; exact h.waits_iff
  waits_queue := by rw [horphans, hwaiting]; exact h.waits_queue
  waiting_nonempty := by rw [hwaiting]; exact h.waiting_nonempty
  lacks := by rw [horphans, hheaders]; exact h.lacks
  queue_mem := by rw [hheaders]; exact h.queue_mem
  queue_nodup := h.queue_nodup

theorem PoolLoop.samePool (h : PoolLoop known queue children S) (hT : S.SamePool T) :
    PoolLoop known queue children T :=
  h.congr (hT.dag ▸ h.valid) (by rw [hT.dag]) hT.config hT.orphans hT.orphanOrder hT.waitingOn

/-- An orphan that lacks no parent leaves the pool. -/
theorem PoolLoop.drop (h : PoolLoop known queue children S) {child : BlockHash} {orphan : Orphan}
    (hl : S.orphans.lookup child = some orphan) (hcomplete : S.Complete orphan)
    {children' : List BlockHash} (hchildren : ∀ b ∈ children, b ≠ child → b ∈ children') :
    PoolLoop known queue children' { S with
      orphans := S.orphans.erase child
      orphanOrder := S.orphanOrder.filter (· ≠ child) } := by
  have hlookup : ∀ {b o}, (S.orphans.erase child).lookup b = some o ↔
      b ≠ child ∧ S.orphans.lookup b = some o := Maps.lookup_erase_eq_some
  have hmem : ∀ {b}, b ∈ S.orphans.erase child ↔ b ≠ child ∧ b ∈ S.orphans :=
    Finmap.mem_erase
  refine ⟨h.valid, fun hb => h.known_orphan (hlookup.mp hb).2, h.order_nodup.filter _, ?_, ?_,
    fun hb => h.outside (hmem.mp hb).2, fun {p b} hp => ?_,
    fun hp hb => h.waits_queue hp (hlookup.mp hb).2, h.waiting_nonempty, fun {b o} hb => ?_,
    h.queue_mem, h.queue_nodup⟩
  · -- the order loses the same block as the pool
    intro b
    rw [List.mem_filter, h.mem_order, hmem, and_comm, decide_eq_true_iff]
  · refine le_trans (Finset.card_le_card ?_) h.bounded
    intro b hb
    exact Finmap.mem_keys.mpr (hmem.mp (Finmap.mem_keys.mp hb)).2
  · -- nobody waited on behalf of the orphan that leaves
    rw [h.waits_iff hp]
    refine exists_congr fun o => ⟨fun ⟨ho, hpo, hout⟩ => ⟨?_, hpo, hout⟩,
      fun ⟨ho, hpo, hout⟩ => ⟨(hlookup.mp ho).2, hpo, hout⟩⟩
    refine hlookup.mpr ⟨?_, ho⟩
    rintro rfl
    rw [hl] at ho
    obtain rfl := Option.some.inj ho
    exact hout (hcomplete p hpo)
  · -- what else was held lacks what it lacked, or is still to be tried
    obtain ⟨hne, hb⟩ := hlookup.mp hb
    exact (h.lacks hb).imp (fun hin => hchildren b hin hne) id

/-- The DAG grows by a block that is no orphan, and the block is appended to the queue. -/
theorem PoolLoop.grow (h : PoolLoop known queue children S) {header : Header}
    (hok : (S.dag.addBlock header).2 = .ok header.hash) (hfree : header.hash ∉ S.orphans)
    (hvalid : T.dag.Valid) (hheaders : T.dag.headers = (S.dag.addBlock header).1.headers)
    (hconfig : T.config = S.config) (horphans : T.orphans = S.orphans)
    (horder : T.orphanOrder = S.orphanOrder) (hwaiting : T.waitingOn = S.waitingOn) :
    PoolLoop known (queue ++ [header.hash]) children T := by
  obtain ⟨hnew, hinsert⟩ := DagStore.headers_addBlock_of_ok hok
  have hmem : ∀ {b}, b ∈ T.dag.headers ↔ b = header.hash ∨ b ∈ S.dag.headers := by
    intro b
    rw [hheaders, hinsert]
    exact Finmap.mem_insert
  have hqueue : ∀ {p}, p ∈ queue ++ [header.hash] ↔ p ∈ queue ∨ p = header.hash := by
    intro p
    rw [List.mem_append, List.mem_singleton]
  have hnotin : header.hash ∉ queue := fun hin => hnew (h.queue_mem hin)
  refine ⟨hvalid, by rw [horphans]; exact h.known_orphan, by rw [horder]; exact h.order_nodup,
    by rw [horder, horphans]; exact h.mem_order, by rw [horphans, hconfig]; exact h.bounded,
    ?_, fun {p b} hp => ?_, fun {p b orphan} hp hl hpo => ?_,
    by rw [hwaiting]; exact h.waiting_nonempty, fun {b orphan} hl => ?_, fun {p} hp => ?_, ?_⟩
  · intro b hb hin
    rw [horphans] at hb
    obtain rfl | hin := hmem.mp hin
    · exact hfree hb
    · exact h.outside hb hin
  · rw [hqueue, not_or] at hp
    rw [horphans, hwaiting, h.waits_iff hp.1]
    -- for any other parent nothing has changed
    refine exists_congr fun o => and_congr_right fun _ => and_congr_right fun _ => ?_
    rw [hmem, not_or]
    exact (and_iff_right hp.2).symm
  · rw [horphans] at hl
    rw [hwaiting]
    obtain hp | rfl := hqueue.mp hp
    · exact h.waits_queue hp hl hpo
    · exact (h.waits_iff hnotin).mpr ⟨orphan, hl, hpo, hnew⟩
  · rw [horphans] at hl
    refine (h.lacks hl).imp id ?_
    rintro ⟨p, hp, hout | hin⟩
    · -- what was missing is still missing, or it is the new block
      by_cases hphash : p = header.hash
      · exact ⟨p, hp, Or.inr (hqueue.mpr (Or.inr hphash))⟩
      · exact ⟨p, hp, Or.inl fun hin => (hmem.mp hin).elim hphash hout⟩
    · exact ⟨p, hp, Or.inr (hqueue.mpr (Or.inl hin))⟩
  · obtain hp | rfl := hqueue.mp hp
    · exact hmem.mpr (Or.inr (h.queue_mem hp))
    · exact hmem.mpr (Or.inl rfl)
  · refine List.nodup_append.mpr ⟨h.queue_nodup, List.nodup_singleton _, fun a ha b hb he => ?_⟩
    rw [List.mem_singleton.mp hb] at he
    exact hnotin (he ▸ ha)

/-- A listed orphan needs no further attention if it is gone or lacks a parent. -/
theorem PoolLoop.pass {child : BlockHash} (h : PoolLoop known queue (child :: children) S)
    (hpass : ∀ orphan, S.orphans.lookup child = some orphan → ¬ S.Complete orphan) :
    PoolLoop known queue children S where
  valid := h.valid
  known_orphan := h.known_orphan
  order_nodup := h.order_nodup
  mem_order := h.mem_order
  bounded := h.bounded
  outside := h.outside
  waits_iff := h.waits_iff
  waits_queue := h.waits_queue
  waiting_nonempty := h.waiting_nonempty
  lacks {b orphan} hl := by
    obtain hb | hlacks := h.lacks hl
    · obtain rfl | hb := List.mem_cons.mp hb
      · have hmissing := hpass orphan hl
        unfold Complete at hmissing
        push Not at hmissing
        obtain ⟨p, hp, hout⟩ := hmissing
        exact Or.inr ⟨p, hp, Or.inl hout⟩
      · exact Or.inl hb
    · exact Or.inr hlacks
  queue_mem := h.queue_mem
  queue_nodup := h.queue_nodup

/-- A block of the queue nobody waits on. -/
theorem PoolLoop.idle {parent : BlockHash} (h : PoolLoop known (parent :: queue) [] S)
    (hl : S.waitingOn.lookup parent = none) : PoolLoop known queue [] S := by
  have hnobody : ∀ b, ¬ Waits S.waitingOn parent b := by
    rintro b ⟨set, hset, -⟩
    rw [hl] at hset
    cases hset
  have hparent := h.queue_mem List.mem_cons_self
  refine ⟨h.valid, h.known_orphan, h.order_nodup, h.mem_order, h.bounded, h.outside,
    fun {p b} hp => ?_, fun hp => h.waits_queue (List.mem_cons_of_mem parent hp),
    h.waiting_nonempty, fun {b orphan} hlb => ?_,
    fun hp => h.queue_mem (List.mem_cons_of_mem parent hp), (List.nodup_cons.mp h.queue_nodup).2⟩
  · -- the parent is in the store now, so nobody may be waiting on it
    by_cases hpp : p = parent
    · subst hpp
      refine iff_of_false (hnobody b) ?_
      rintro ⟨o, -, -, hout⟩
      exact hout hparent
    · exact h.waits_iff (List.not_mem_cons_of_ne_of_not_mem hpp hp)
  · -- what lacked `parent` alone would have been waiting on it
    refine (h.lacks hlb).imp id ?_
    rintro ⟨p, hp, hout | hin⟩
    · exact ⟨p, hp, Or.inl hout⟩
    · obtain rfl | hin := List.mem_cons.mp hin
      · exact absurd (h.waits_queue List.mem_cons_self hlb hp) (hnobody b)
      · exact ⟨p, hp, Or.inr hin⟩

/-- The turn of a block of the queue: those that wait on it are about to be tried. -/
theorem PoolLoop.turn {parent : BlockHash} (h : PoolLoop known (parent :: queue) [] S)
    {set : Finset BlockHash} (hl : S.waitingOn.lookup parent = some set) :
    PoolLoop known queue (Maps.sortedKeys set) (S.released parent) := by
  have hparent := h.queue_mem List.mem_cons_self
  have hnot : parent ∉ queue := (List.nodup_cons.mp h.queue_nodup).1
  -- only the entry of `parent` is taken out
  have hwaits : ∀ {p b}, Waits (S.waitingOn.erase parent) p b ↔
      p ≠ parent ∧ Waits S.waitingOn p b := by
    intro p b
    unfold Waits
    rw [Maps.lookup_erase]
    by_cases hp : p = parent
    · simp [hp]
    · simp [hp]
  refine ⟨h.valid, h.known_orphan, h.order_nodup, h.mem_order, h.bounded, h.outside,
    fun {p b} hp => ?_, fun {p b orphan} hp hlb hpo => ?_, fun {p set'} hset => ?_,
    fun {b orphan} hlb => ?_, fun hp => h.queue_mem (List.mem_cons_of_mem parent hp),
    (List.nodup_cons.mp h.queue_nodup).2⟩
  · refine hwaits.trans ?_
    by_cases hpp : p = parent
    · subst hpp
      refine iff_of_false (fun hw => hw.1 rfl) ?_
      rintro ⟨o, -, -, hout⟩
      exact hout hparent
    · exact (and_iff_right hpp).trans (h.waits_iff (List.not_mem_cons_of_ne_of_not_mem hpp hp))
  · exact hwaits.mpr ⟨fun he => hnot (he ▸ hp),
      h.waits_queue (List.mem_cons_of_mem parent hp) hlb hpo⟩
  · change (S.waitingOn.erase parent).lookup p = some set' at hset
    rw [Maps.lookup_erase] at hset
    split at hset
    · cases hset
    · exact h.waiting_nonempty hset
  · -- who lacked a parent still queued either waited on this one or lacks another
    obtain hb | ⟨p, hp, hout | hin⟩ := h.lacks hlb
    · exact absurd hb List.not_mem_nil
    · exact Or.inr ⟨p, hp, Or.inl hout⟩
    · obtain rfl | hin := List.mem_cons.mp hin
      · -- it waits on the block whose turn it is
        obtain ⟨set', hset', hb⟩ := h.waits_queue List.mem_cons_self hlb hp
        obtain rfl := Option.some.inj (hl.symm.trans hset')
        exact Or.inl (Maps.mem_sortedKeys.mpr hb)
      · exact Or.inr ⟨p, hp, Or.inr hin⟩

/-! ### The resolver -/

/-- An orphan that lacks no parent joins the DAG. -/
theorem PoolLoop.joined {child : BlockHash} (h : PoolLoop known queue (child :: children) S)
    {orphan : Orphan} (hl : S.orphans.lookup child = some orphan) (hcomplete : S.Complete orphan)
    (hok : ∃ hash, (S.dag.addBlock orphan.header).2 = .ok hash) :
    PoolLoop known (queue ++ [child]) children (S.joined child orphan).1 := by
  obtain ⟨-, rfl⟩ := h.known_orphan hl
  have hothers : ∀ b ∈ orphan.header.hash :: children, b ≠ orphan.header.hash → b ∈ children :=
    fun b hb hne => (List.mem_cons.mp hb).resolve_left hne
  have hleft := h.drop hl hcomplete hothers
  obtain ⟨_, hok⟩ := hok
  have hok' := DagStore.addBlock_ok_hash hok
  have hgrown := hleft.grow (T := { S.tried orphan.header.hash orphan with
      accepted := S.accepted ++ [orphan.header.hash] }) hok'
    (fun hin => (Finmap.mem_erase.mp hin).1 rfl)
    (h.valid.addBlock orphan.header) rfl rfl rfl rfl rfl
  exact hgrown.samePool (onlyPeers_joined _ _).samePool

/-- An orphan that lacks no parent is refused by the DAG. -/
theorem PoolLoop.refused {child : BlockHash} (h : PoolLoop known queue (child :: children) S)
    {orphan : Orphan} (hl : S.orphans.lookup child = some orphan) (hcomplete : S.Complete orphan)
    (herror : ∃ e, (S.dag.addBlock orphan.header).2 = .error e) :
    PoolLoop known queue children (S.tried child orphan) := by
  obtain ⟨e, he⟩ := herror
  have hothers : ∀ b ∈ child :: children, b ≠ child → b ∈ children :=
    fun b hb hne => (List.mem_cons.mp hb).resolve_left hne
  have hleft := h.drop hl hcomplete hothers
  exact hleft.congr (h.valid.addBlock orphan.header) (DagStore.headers_addBlock_of_error he)
    rfl rfl rfl rfl

theorem PoolLoop.tryChildren (h : PoolLoop known queue children S) (actions : List Action) :
    PoolLoop known (tryChildren children S actions queue).2.2 []
      (tryChildren children S actions queue).1 :=
  tryChildren_induct (P := fun children T _ queue => PoolLoop known queue children T)
    (fun _ _ T _ _ hl hT => hT.pass fun o ho => by rw [hl] at ho; cases ho)
    (fun _ _ T _ _ orphan hl hmissing hT => hT.pass fun o ho => by
      obtain rfl := Option.some.inj (hl.symm.trans ho)
      exact hmissing)
    (fun _ _ T _ _ orphan hl hcomplete hok hT => hT.joined hl hcomplete hok)
    (fun _ _ T _ _ orphan hl hcomplete herror hT => hT.refused hl hcomplete herror)
    children S actions queue h

/-- **The resolver leaves no orphan behind.** -/
theorem PoolLoop.resolveOrphansOf {hash : BlockHash} (h : PoolLoop known [hash] [] S) :
    PoolLoop known [] [] (S.resolveOrphansOf hash).1 :=
  resolveOrphansOf_induct (P := fun queue T _ => PoolLoop known queue [] T)
    (fun _ _ _ _ hl hT => hT.idle hl)
    (fun _ _ _ actions _ hl hT => (hT.turn hl).tryChildren actions) S hash h

/-! ### Eviction -/

/-- An evicted orphan no longer waits on one of its parents. -/
def unwaitOne (hash : BlockHash) (waitingOn : Map BlockHash (Finset BlockHash))
    (parent : BlockHash) : Map BlockHash (Finset BlockHash) :=
  match waitingOn.lookup parent with
  | none => waitingOn
  | some set =>
    if set.erase hash = ∅ then waitingOn.erase parent
    else waitingOn.insert parent (set.erase hash)

omit [HeaderHash] in
theorem unwait_cons (hash parent : BlockHash) (parents : List BlockHash)
    (waitingOn : Map BlockHash (Finset BlockHash)) :
    unwait hash (parent :: parents) waitingOn
      = unwait hash parents (unwaitOne hash waitingOn parent) := rfl

omit [HeaderHash] in
theorem lookup_unwaitOne (hash parent p : BlockHash)
    (waitingOn : Map BlockHash (Finset BlockHash)) :
    (unwaitOne hash waitingOn parent).lookup p =
      if p = parent then
        (waitingOn.lookup p).bind fun set => if set.erase hash = ∅ then none else set.erase hash
      else waitingOn.lookup p := by
  unfold unwaitOne
  -- no entry, the entry emptied by the removal, or a smaller one
  cases hl : waitingOn.lookup parent with
  | none =>
    by_cases hp : p = parent
    · rw [if_pos hp, hp, hl]
      rfl
    · rw [if_neg hp]
  | some set =>
    dsimp only
    split
    · next hempty =>
      rw [Maps.lookup_erase]
      by_cases hp : p = parent
      · rw [if_pos hp, if_pos hp, hp, hl, Option.bind_some, if_pos hempty]
      · rw [if_neg hp, if_neg hp]
    · next hempty =>
      rw [Maps.lookup_insert]
      by_cases hp : p = parent
      · rw [if_pos hp, if_pos hp, hp, hl, Option.bind_some, if_neg hempty]
      · rw [if_neg hp, if_neg hp]

omit [HeaderHash] in
theorem waits_unwaitOne {hash parent p b : BlockHash}
    {waitingOn : Map BlockHash (Finset BlockHash)} :
    Waits (unwaitOne hash waitingOn parent) p b ↔
      Waits waitingOn p b ∧ ¬ (b = hash ∧ p = parent) := by
  unfold Waits
  rw [lookup_unwaitOne]
  -- at `parent` the hash is taken out; elsewhere nothing changes
  by_cases hp : p = parent
  · rw [if_pos hp]
    refine ⟨?_, ?_⟩
    · rintro ⟨set', hset', hb⟩
      obtain ⟨set, hset, hif⟩ := Option.bind_eq_some_iff.mp hset'
      split at hif
      · cases hif
      · obtain rfl := Option.some.inj hif
        obtain ⟨hne, hin⟩ := Finset.mem_erase.mp hb
        exact ⟨⟨set, hset, hin⟩, fun he => hne he.1⟩
    · rintro ⟨⟨set, hset, hin⟩, hne⟩
      have hb : b ∈ set.erase hash := Finset.mem_erase.mpr ⟨fun he => hne ⟨he, hp⟩, hin⟩
      refine ⟨set.erase hash, ?_, hb⟩
      rw [hset, Option.bind_some, if_neg (Finset.ne_empty_of_mem hb)]
  · rw [if_neg hp]
    exact (and_iff_left fun he => hp he.2).symm

omit [HeaderHash] in
/-- Who waits on what after an orphan has been taken off the lists of some parents. -/
theorem waits_unwait {hash : BlockHash} {parents : List BlockHash}
    {waitingOn : Map BlockHash (Finset BlockHash)} {p b : BlockHash} :
    Waits (unwait hash parents waitingOn) p b ↔
      Waits waitingOn p b ∧ ¬ (b = hash ∧ p ∈ parents) := by
  induction parents generalizing waitingOn with
  | nil => exact (and_iff_left fun h => List.not_mem_nil h.2).symm
  | cons parent parents ih =>
    rw [unwait_cons, ih, waits_unwaitOne, List.mem_cons]
    tauto

omit [HeaderHash] in
theorem nonempty_unwait {hash : BlockHash} {parents : List BlockHash}
    {waitingOn : Map BlockHash (Finset BlockHash)}
    (h : ∀ {p set}, waitingOn.lookup p = some set → set.Nonempty) {p : BlockHash}
    {set : Finset BlockHash} (hl : (unwait hash parents waitingOn).lookup p = some set) :
    set.Nonempty := by
  -- parent by parent; an entry emptied is removed, so none stays empty
  induction parents generalizing waitingOn with
  | nil => exact h hl
  | cons parent parents ih =>
    rw [unwait_cons] at hl
    refine ih (fun {q s} hq => ?_) hl
    rw [lookup_unwaitOne] at hq
    split at hq
    · obtain ⟨set', hset', hif⟩ := Option.bind_eq_some_iff.mp hq
      split at hif
      · cases hif
      · next hne =>
        rw [← Option.some.inj hif]
        exact Finset.nonempty_iff_ne_empty.mpr hne
    · exact h hq

/-- The oldest orphan is taken out of the pool, whatever it waits on. -/
theorem PoolLoop.expel {oldest : BlockHash} {rest : List BlockHash}
    (h : PoolLoop known [] [] { S with orphanOrder := oldest :: rest }) {evicted : Orphan}
    (hl : S.orphans.lookup oldest = some evicted) :
    PoolLoop known [] [] { S with
      orphans := S.orphans.erase oldest
      orphanOrder := rest
      waitingOn := unwait oldest evicted.header.parents S.waitingOn } := by
  have hlookup : ∀ {b o}, (S.orphans.erase oldest).lookup b = some o ↔
      b ≠ oldest ∧ S.orphans.lookup b = some o := Maps.lookup_erase_eq_some
  have hmem : ∀ {b}, b ∈ S.orphans.erase oldest ↔ b ≠ oldest ∧ b ∈ S.orphans :=
    Finmap.mem_erase
  obtain ⟨hnot, hnodup⟩ := List.nodup_cons.mp h.order_nodup
  refine ⟨h.valid, fun hb => h.known_orphan (hlookup.mp hb).2, hnodup, fun {b} => ?_, ?_,
    fun hb => h.outside (hmem.mp hb).2, fun {p b} hp => ?_, fun hp => absurd hp List.not_mem_nil,
    fun hset => nonempty_unwait h.waiting_nonempty hset, fun hb => h.lacks (hlookup.mp hb).2,
    h.queue_mem, h.queue_nodup⟩
  · -- the oldest leaves the head of the order
    have horder : b ∈ oldest :: rest ↔ b ∈ S.orphans := h.mem_order
    rw [hmem, ← horder, List.mem_cons]
    refine ⟨fun hb => ⟨fun he => hnot (he ▸ hb), Or.inr hb⟩, fun ⟨hne, hb⟩ => hb.resolve_left hne⟩
  · refine le_trans (Finset.card_le_card fun b hb => ?_) h.bounded
    exact Finmap.mem_keys.mpr (hmem.mp (Finmap.mem_keys.mp hb)).2
  · -- nobody waits on its behalf any more, and the others as before
    have hwaits : Waits S.waitingOn p b ↔ ∃ o, S.orphans.lookup b = some o ∧
        p ∈ o.header.parents ∧ p ∉ S.dag.headers := h.waits_iff hp
    refine waits_unwait.trans ?_
    rw [hwaits]
    refine ⟨?_, ?_⟩
    · rintro ⟨⟨o, ho, hpo, hout⟩, hne⟩
      refine ⟨o, hlookup.mpr ⟨?_, ho⟩, hpo, hout⟩
      rintro rfl
      rw [hl] at ho
      obtain rfl := Option.some.inj ho
      exact hne ⟨rfl, hpo⟩
    · rintro ⟨o, ho, hpo, hout⟩
      obtain ⟨hne, ho⟩ := hlookup.mp ho
      exact ⟨⟨o, ho, hpo, hout⟩, fun he => hne he.1⟩

/-- Eviction keeps the pool in order, whatever it evicts, and makes room. -/
theorem PoolLoop.evict {order : List BlockHash} (hmax : 0 < S.config.maxOrphans)
    (h : PoolLoop known [] [] { S with orphanOrder := order }) :
    PoolLoop known [] [] (evict order S) ∧
      (evict order S).orphans.keys.card < (evict order S).config.maxOrphans := by
  induction order generalizing S with
  | nil =>
    -- an empty order means that there are no orphans
    have hnone : S.orphans.keys = ∅ := Finset.eq_empty_of_forall_notMem fun b hb =>
      List.not_mem_nil (h.mem_order.mpr (Finmap.mem_keys.mp hb))
    refine ⟨h, ?_⟩
    change S.orphans.keys.card < S.config.maxOrphans
    rw [hnone]
    exact hmax
  | cons oldest rest ih =>
    have hroom : DagSync.evict (oldest :: rest) S
        = if S.orphans.keys.card < S.config.maxOrphans then { S with orphanOrder := oldest :: rest }
          else (S.orphans.lookup oldest).elim (DagSync.evict rest S) fun evicted =>
            DagSync.evict rest { S with
              orphans := S.orphans.erase oldest
              waitingOn := unwait oldest evicted.header.parents S.waitingOn } := by
      rw [DagSync.evict]
      cases S.orphans.lookup oldest with
      | none => rfl
      | some evicted => rfl
    rw [hroom]
    split
    · next hlt => exact ⟨h, hlt⟩
    · obtain ⟨evicted, hl⟩ := Maps.mem_iff_exists_lookup.mp (h.mem_order.mp List.mem_cons_self)
      have hl : S.orphans.lookup oldest = some evicted := hl
      rw [hl]
      exact ih hmax (h.expel hl)

/-! ### The calls -/

omit [HeaderHash] in
/-- What waits once a block has been entered under the parents it lacks. -/
theorem waits_wait {hash p b : BlockHash} {parents : List BlockHash} :
    Waits (S.wait hash parents) p b ↔
      Waits S.waitingOn p b ∨ b = hash ∧ p ∈ parents ∧ p ∉ S.dag.headers := by
  unfold Waits
  rw [lookup_wait]
  by_cases hp : p ∈ parents ∧ p ∉ S.dag.headers
  · rw [if_pos hp]
    simp only [Option.some.injEq, exists_eq_left', Finset.mem_insert, hp, not_false_eq_true,
      and_self, and_true]
    -- the entry grows by `hash`, and is made if there is none
    cases S.waitingOn.lookup p with
    | none => simp
    | some set => simp [or_comm]
  · rw [if_neg hp]
    exact (or_iff_left fun hb => hp hb.2).symm

/-- A block whose parents are missing is held. -/
theorem PoolLoop.storeOrphan (hmax : 0 < S.config.maxOrphans) (h : PoolLoop known [] [] S)
    {header : Header} (hknown : known header) (hfree : header.hash ∉ S.orphans)
    (hnew : header.hash ∉ S.dag.headers) (hmissing : ∃ p ∈ header.parents, p ∉ S.dag.headers)
    (sender : PeerId) : PoolLoop known [] [] (S.storeOrphan header.hash header sender) := by
  have horder : PoolLoop known [] [] { S with orphanOrder := S.orphanOrder } := h
  obtain ⟨hpool, hroom⟩ := PoolLoop.evict hmax horder
  have hfree' : header.hash ∉ (DagSync.evict S.orphanOrder S).orphans := fun hin => by
    obtain ⟨o, ho⟩ := Maps.mem_iff_exists_lookup.mp hin
    exact hfree (Maps.mem_of_lookup (lookup_of_lookup_evict _ ho))
  have hdag : (DagSync.evict S.orphanOrder S).dag = S.dag := (onlyOrphans_evict _).dag
  rw [← hdag] at hnew hmissing
  unfold DagSync.storeOrphan
  -- from here on only the pool with room matters, not how the room was made
  generalize DagSync.evict S.orphanOrder S = T at hpool hroom hfree' hnew hmissing
  have hlookup : ∀ {b o}, (T.orphans.insert header.hash ⟨header, sender⟩).lookup b = some o ↔
      b = header.hash ∧ o = ⟨header, sender⟩ ∨ b ≠ header.hash ∧ T.orphans.lookup b = some o :=
    Maps.lookup_insert_eq_some
  have hmem : ∀ {b}, b ∈ T.orphans.insert header.hash ⟨header, sender⟩ ↔
      b = header.hash ∨ b ∈ T.orphans := Finmap.mem_insert
  refine ⟨hpool.valid, fun {b o} hb => ?_, ?_, fun {b} => ?_, ?_, fun {b} hb => ?_,
    fun {p b} hp => ?_, fun hp => absurd hp List.not_mem_nil, fun {p set} hset => ?_,
    fun {b o} hb => ?_, hpool.queue_mem, hpool.queue_nodup⟩
  · obtain ⟨rfl, rfl⟩ | ⟨-, hb⟩ := hlookup.mp hb
    · exact ⟨hknown, rfl⟩
    · exact hpool.known_orphan hb
  · refine List.nodup_append.mpr ⟨hpool.order_nodup, List.nodup_singleton _, ?_⟩
    intro a ha b hb he
    rw [List.mem_singleton.mp hb] at he
    exact hfree' (hpool.mem_order.mp (he ▸ ha))
  · rw [List.mem_append, List.mem_singleton, hpool.mem_order, hmem, or_comm]
  · change (T.orphans.insert header.hash ⟨header, sender⟩).keys.card ≤ T.config.maxOrphans
    have hsub : (T.orphans.insert header.hash ⟨header, sender⟩).keys
        ⊆ insert header.hash T.orphans.keys := fun b hb =>
      Finset.mem_insert.mpr ((hmem.mp (Finmap.mem_keys.mp hb)).imp id Finmap.mem_keys.mpr)
    exact (Finset.card_le_card hsub).trans ((Finset.card_insert_le _ _).trans hroom)
  · obtain rfl | hb := hmem.mp hb
    · exact hnew
    · exact hpool.outside hb
  · -- who waits: those who did, and the new orphan on the parents it lacks
    refine waits_wait.trans ?_
    rw [hpool.waits_iff hp]
    refine ⟨?_, ?_⟩
    · rintro (⟨o, ho, hpo, hout⟩ | ⟨rfl, hpo, hout⟩)
      · refine ⟨o, hlookup.mpr (Or.inr ⟨?_, ho⟩), hpo, hout⟩
        rintro rfl
        exact hfree' (Maps.mem_of_lookup ho)
      · exact ⟨⟨header, sender⟩, hlookup.mpr (Or.inl ⟨rfl, rfl⟩), hpo, hout⟩
    · rintro ⟨o, ho, hpo, hout⟩
      obtain ⟨rfl, rfl⟩ | ⟨-, ho⟩ := hlookup.mp ho
      · exact Or.inr ⟨rfl, hpo, hout⟩
      · exact Or.inl ⟨o, ho, hpo, hout⟩
  · change (T.wait header.hash header.parents).lookup p = some set at hset
    rw [lookup_wait] at hset
    split at hset
    · rw [← Option.some.inj hset]
      exact Finset.insert_nonempty _ _
    · exact hpool.waiting_nonempty hset
  · obtain ⟨rfl, rfl⟩ | ⟨-, hb⟩ := hlookup.mp hb
    · obtain ⟨p, hp, hout⟩ := hmissing
      exact Or.inr ⟨p, hp, Or.inl hout⟩
    · exact hpool.lacks hb

/-- A block that joins and is no orphan is followed up. -/
theorem PoolLoop.follow (h : PoolLoop known [] [] S) {header : Header}
    (hok : ∃ hash, (S.dag.addBlock header).2 = .ok hash) (hfree : header.hash ∉ S.orphans)
    {T : DagSync} (hdag : T.dag = (S.dag.addBlock header).1) (hconfig : T.config = S.config)
    (horphans : T.orphans = S.orphans) (horder : T.orphanOrder = S.orphanOrder)
    (hwaiting : T.waitingOn = S.waitingOn) :
    PoolLoop known [] [] (T.resolveOrphansOf header.hash).1 := by
  obtain ⟨_, hok⟩ := hok
  have hok' := DagStore.addBlock_ok_hash hok
  have hgrown : PoolLoop known [header.hash] [] T := h.grow hok' hfree
    (hdag ▸ h.valid.addBlock header) (by rw [hdag]) hconfig horphans horder hwaiting
  exact hgrown.resolveOrphansOf

theorem PoolLoop.admitBlock (hmax : 0 < S.config.maxOrphans) (h : PoolLoop known [] [] S)
    {header : Header} (hknown : known header) (hfree : header.hash ∉ S.orphans)
    (sender : PeerId) (now : ℕ) : PoolLoop known [] [] (S.admitBlock header sender now).1 := by
  -- the header joins, is held for want of a parent, or is refused for another reason
  obtain ⟨hash, hok, he⟩ | ⟨block, parent, hmissing, he⟩ | ⟨e, herror, -, he⟩ :=
    S.admit_cases header sender now
  · rw [he]
    obtain ⟨hdag, -, hconfig, horphans, horder, hwaiting, -⟩ :=
      samePool_relayed (S := S) header sender
    exact h.follow ⟨hash, hok⟩ hfree hdag hconfig horphans horder hwaiting
  · rw [he]
    obtain ⟨hnew, hout⟩ := h.valid.missing_of_addBlock hmissing
    have hheaders := DagStore.headers_addBlock_of_error hmissing
    have hsame : PoolLoop known [] [] ({ S with dag := (S.dag.addBlock header).1 } : DagSync) :=
      h.congr (h.valid.addBlock header) hheaders rfl rfl rfl rfl
    refine PoolLoop.samePool ?_ (samePool_requestFrom sender _ now)
    exact hsame.storeOrphan (S := { S with dag := (S.dag.addBlock header).1 }) hmax hknown hfree
      (by rw [hheaders]; exact hnew) (by rw [hheaders]; exact hout) sender
  · rw [he]
    exact h.congr (h.valid.addBlock header) (DagStore.headers_addBlock_of_error herror)
      rfl rfl rfl rfl

/-- Delivered blocks that are held already, refused or admitted. -/
theorem PoolLoop.onBlocks (hmax : 0 < S.config.maxOrphans) (h : PoolLoop known [] [] S)
    {peer : PeerId} {blocks : List BlockPayload}
    (hknown : ∀ block ∈ blocks, known block.header) (now : ℕ) :
    PoolLoop known [] [] (S.onBlocks peer blocks now).1 := by
  refine (onBlocks_induct (P := fun T => 0 < T.config.maxOrphans ∧ PoolLoop known [] [] T)
    ?_ ?_ ?_ ⟨hmax, h⟩).2
  · rintro hash T ⟨hmax, hT⟩
    have hsame := samePool_received (S := T) peer hash
    exact ⟨hsame.config ▸ hmax, hT.samePool hsame⟩
  · -- the frame's three kinds of block: a known hash, a body that does not match, one taken
    rintro hash T ⟨hmax, hT⟩
    have hsame := samePool_rebuked (S := T) peer hash
    exact ⟨hsame.config ▸ hmax, hT.samePool hsame⟩
  · rintro block T htakes ⟨hmax, hT⟩
    obtain ⟨hmem, -, hfree⟩ := htakes.facts
    obtain ⟨hdag, -, hconfig, horphans, horder, hwaiting, -⟩ :=
      samePool_received (S := T) peer block.hash
    have htaken : PoolLoop known [] [] (T.taken peer block) :=
      hT.congr (T := T.taken peer block) (by change (T.received peer block.hash).dag.Valid; rw [hdag]; exact hT.valid)
        (congrArg DagStore.headers hdag) hconfig horphans horder hwaiting
    have hmax' : 0 < (T.taken peer block).config.maxOrphans := by
      change 0 < (T.received peer block.hash).config.maxOrphans
      rw [hconfig]
      exact hmax
    have hfree' : block.header.hash ∉ (T.taken peer block).orphans := by
      change block.hash ∉ (T.received peer block.hash).orphans
      rw [horphans]
      exact hfree
    refine ⟨?_, htaken.admitBlock hmax' (hknown block hmem) hfree' peer now⟩
    rw [(sameSetup_admitBlock block.header peer now).config]
    exact hmax'

/-- A block is mined here. If its hash is that of an orphan it is that block. -/
theorem PoolLoop.onLocalBlock (h : PoolLoop known [] [] S) {block : BlockPayload}
    (hsame : ∀ orphan, S.orphans.lookup block.hash = some orphan →
      orphan.header = block.header) :
    PoolLoop known [] [] (S.onLocalBlock block).1 := by
  obtain ⟨hash, hok, he⟩ | ⟨e, herror, he⟩ := S.onLocalBlock_cases block
  · rw [he]
    obtain ⟨hdag, -, hconfig, horphans, horder, hwaiting, -⟩ := samePool_mined (S := S) block
    refine h.follow ⟨hash, hok⟩ (fun hin => ?_) hdag hconfig horphans horder hwaiting
    -- a held block lacks a parent, and so could not have joined
    obtain ⟨orphan, hl⟩ := Maps.mem_iff_exists_lookup.mp hin
    obtain ⟨p, hp, hout⟩ := h.orphanPool.lacks hl
    rw [hsame orphan hl] at hp
    have hok' := DagStore.addBlock_ok_hash hok
    exact hout (((h.valid.addBlock_ok_iff block.header).mp hok').1.parent_mem p hp)
  · rw [he]
    exact h.congr (h.valid.addBlock block.header) (DagStore.headers_addBlock_of_error herror)
      rfl rfl rfl rfl

end Loop

end DagSync

/-! ### Runs -/

/-- The headers that a call brings. -/
def SyncCall.headers : SyncCall → List Header
  | .message _ (.blocks blocks) _ => blocks.map BlockPayload.header
  | .localBlock block => [block.header]
  | _ => []

/-- No two headers that the calls bring have the same hash. -/
def Collisionless [HeaderHash] (calls : List SyncCall) : Prop :=
  ∀ call ∈ calls, ∀ call' ∈ calls, ∀ header ∈ call.headers, ∀ header' ∈ call'.headers,
    header.hash = header'.hash → header = header'

namespace DagSync

section Runs

variable [HeaderHash] {known : Header → Prop} {S : DagSync}

/-- One call. -/
theorem PoolLoop.step (hmax : 0 < S.config.maxOrphans) (h : PoolLoop known [] [] S)
    {call : SyncCall} (hknown : ∀ header ∈ call.headers, known header)
    (hdistinct : ∀ header header', known header → known header' →
      header.hash = header'.hash → header = header') :
    PoolLoop known [] [] (S.step call) := by
  obtain ⟨peer, blocks, now, rfl, -, hstep⟩ | ⟨block, rfl⟩ | ⟨hsame, -⟩ := S.step_cases call
  · rw [hstep]
    exact h.onBlocks hmax (fun block hb => hknown _ (List.mem_map_of_mem hb)) now
  · refine h.onLocalBlock fun orphan hl => ?_
    obtain ⟨hheader, hhash⟩ := h.known_orphan hl
    exact hdistinct _ _ hheader (hknown _ List.mem_cons_self) hhash
  · exact h.samePool hsame

theorem poolLoop_new {dag : DagStore} (hdag : dag.Valid) (gate : Header → Except String Unit)
    (config : SyncConfig) : PoolLoop known [] [] (new dag gate config) where
  valid := hdag
  known_orphan hl := absurd (Maps.mem_of_lookup hl) Finmap.notMem_empty
  order_nodup := List.nodup_nil
  mem_order := iff_of_false List.not_mem_nil Finmap.notMem_empty
  bounded := Nat.zero_le _
  outside hb := absurd hb Finmap.notMem_empty
  waits_iff _ := by
    refine iff_of_false ?_ ?_
    · rintro ⟨set, hset, -⟩
      exact absurd (Maps.mem_of_lookup hset) Finmap.notMem_empty
    · rintro ⟨orphan, hl, -⟩
      exact absurd (Maps.mem_of_lookup hl) Finmap.notMem_empty
  waits_queue hp := absurd hp List.not_mem_nil
  waiting_nonempty hset := absurd (Maps.mem_of_lookup hset) Finmap.notMem_empty
  lacks hl := absurd (Maps.mem_of_lookup hl) Finmap.notMem_empty
  queue_mem hp := absurd hp List.not_mem_nil
  queue_nodup := List.nodup_nil

/-- The invariant of every run, whatever the peers do. -/
theorem poolLoop_throughout {dag : DagStore} (hdag : dag.Valid)
    (gate : Header → Except String Unit) {config : SyncConfig} (hmax : 1 ≤ config.maxOrphans)
    {calls : List SyncCall} (hcalls : Collisionless calls) :
    Runs.Throughout step
      (fun S => 0 < S.config.maxOrphans ∧
        PoolLoop (fun header => ∃ call ∈ calls, header ∈ call.headers) [] [] S)
      (new dag gate config) calls := by
  -- the family of headers is that of the calls still to come and gone
  have hcall : Runs.Each step (fun _ call => call ∈ calls) (new dag gate config) calls :=
    Runs.each_of_mem (fun _ _ hmem => hmem) _
  refine Runs.Each.throughout ?_ hcall ⟨hmax, poolLoop_new hdag gate config⟩
  rintro S call ⟨hroom, hS⟩ hmem
  refine ⟨?_, hS.step hroom (fun header hheader => ⟨call, hmem, hheader⟩) ?_⟩
  · rw [(sameSetup_step call).config]
    exact hroom
  · -- two headers of the calls with one hash are equal
    rintro header header' ⟨call₁, hmem₁, hheader₁⟩ ⟨call₂, hmem₂, hheader₂⟩ he
    exact hcalls call₁ hmem₁ call₂ hmem₂ header hheader₁ header' hheader₂ he

/-- **The orphan pool** is in order in every state of every run, in whatever order blocks
arrive, are refused, evicted or mined. -/
theorem orphanPool_throughout (genesis : Header) (k : UInt16) (limit : ℕ)
    (stored : List Header) (gate : Header → Except String Unit) {config : SyncConfig}
    (hmax : 1 ≤ config.maxOrphans) {calls : List SyncCall} (hcalls : Collisionless calls) :
    Runs.Throughout step OrphanPool
      (new ((DagStore.new genesis k limit).addBlocks stored) gate config) calls :=
  (poolLoop_throughout ((DagStore.new_valid genesis k limit).addBlocks stored) gate hmax
    hcalls).imp fun _ h => h.2.orphanPool

end Runs

open Sample

/-- Two blocks arrive before their parent into a pool for one, and the parent is mined here. -/
def evictThenMine : List SyncCall :=
  [.connect 7, .message 7 .verack 0,
    .message 7 (.blocks [⟨block 2 [1] 0x2000ffff, []⟩]) 0,
    .message 7 (.blocks [⟨block 3 [1] 0x2000ffff, []⟩]) 0,
    .localBlock ⟨block 1 [0] 0x2000ffff, []⟩]

theorem orphanPool_evictThenMine :
    Runs.Throughout step OrphanPool
      (new ((DagStore.new root 2 10).addBlocks []) (fun _ => .ok ()) ⟨1, 1000, hashOf 0⟩)
      evictThenMine :=
  orphanPool_throughout root 2 10 [] _ le_rfl (by
    intro call hcall call' hcall' header hheader header' hheader'
    revert call call' header header'
    decide +kernel)

end DagSync

end Chainname
