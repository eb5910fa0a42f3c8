import Chainname.Ghostdag.Determinism
import Chainname.Net.Handshake

/-!
# Delivery in any order

Blocks may arrive in any order, in any batches and more than once. Whatever has arrived is in
the DAG or waits as an orphan, and an orphan waits on each of its parents that is not in the
DAG (`Pool`). An orphan that lacks no parent does not exist between calls; inside the loops
it may, as long as one of its parents is still in the queue, or it is itself among the orphans
about to be tried.

Of a family of blocks that is closed under parents nothing can then be left waiting once all
of it has arrived: the orphan closest to genesis lacks a parent, which has arrived too, and is
no orphan (`Pool.complete`).
-/

namespace Chainname.DagSync

section Family

variable [HeaderHash] (genesis : Header) (k : UInt16) (limit : ℕ)
  (gate : Header → Except String Unit)

/-- A set of blocks over genesis that is closed under parents. Each names parents, which its
hash commits to; the gate lets each pass, and no store of such blocks finds the merge set of
one too large. -/
structure Family (F : Finset Header) : Prop where
  hash_inj : ∀ {h h'}, h ∈ F → h' ∈ F → h.hash = h'.hash → h = h'
  ne_genesis : ∀ {h}, h ∈ F → h.hash ≠ genesis.hash
  parents_ne_nil : ∀ {h}, h ∈ F → h.parents ≠ []
  closed : ∀ {h p}, h ∈ F → p ∈ h.parents → p = genesis.hash ∨ ∃ h' ∈ F, h'.hash = p
  acyclic : ∃ rank : BlockHash → ℕ, ∀ h ∈ F, ∀ p ∈ h.parents, rank p < rank h.hash
  gate_ok : ∀ {h}, h ∈ F → gate h = .ok ()
  within : ∀ headers : List Header, (∀ h ∈ headers, h ∈ F) → ∀ h ∈ F,
    (((DagStore.new genesis k limit).addBlocks headers).addBlock h).2
      ≠ .error (.mergesetTooLarge h.hash limit)

/-- The DAG has been built from genesis and blocks of the family. -/
def Built (F : Finset Header) (D : DagStore) : Prop :=
  ∃ headers : List Header, (∀ h ∈ headers, h ∈ F) ∧
    D = (DagStore.new genesis k limit).addBlocks headers

variable {genesis k limit gate} {F : Finset Header} {D : DagStore}

theorem Built.valid (h : Built genesis k limit F D) : D.Valid := by
  obtain ⟨headers, -, rfl⟩ := h
  exact (DagStore.new_valid genesis k limit).addBlocks headers

theorem Built.fixed (h : Built genesis k limit F D) :
    D.genesis = genesis.hash ∧ D.k = k ∧ D.mergesetSizeLimit = limit := by
  obtain ⟨headers, -, rfl⟩ := h
  exact DagStore.addBlocks_fixed headers (DagStore.new genesis k limit)

theorem Built.addBlock (h : Built genesis k limit F D) {header : Header} (hmem : header ∈ F) :
    Built genesis k limit F (D.addBlock header).1 := by
  obtain ⟨headers, hsub, rfl⟩ := h
  refine ⟨headers ++ [header], fun x hx => ?_, ?_⟩
  · obtain hx | hx := List.mem_append.mp hx
    · exact hsub x hx
    · exact List.mem_singleton.mp hx ▸ hmem
  · exact (DagStore.addBlocks_concat _ headers header).symm

/-- Whatever is stored is genesis or a block of the family. -/
theorem Built.stored (h : Built genesis k limit F D) {b : BlockHash} {header : Header}
    (hl : D.headers.lookup b = some header) :
    b = genesis.hash ∧ header = genesis ∨ header ∈ F ∧ header.hash = b := by
  obtain ⟨headers, hsub, rfl⟩ := h
  obtain ⟨hmem, hhash⟩ := DagStore.exists_header_of_mem hl
  obtain rfl | hmem := List.mem_cons.mp hmem
  · exact Or.inl ⟨hhash.symm, rfl⟩
  · exact Or.inr ⟨hsub header hmem, hhash⟩

/-- **A block of the family joins as soon as its parents are there.** -/
theorem Family.addBlock_ok (hF : Family genesis k limit gate F) (h : Built genesis k limit F D)
    {header : Header} (hmem : header ∈ F) (hnew : header.hash ∉ D.headers)
    (hparents : ∀ p ∈ header.parents, p ∈ D.headers) :
    (D.addBlock header).2 = .ok header.hash := by
  have hjoin := h.valid.addBlock_of_can_join ⟨hnew, hF.parents_ne_nil hmem, hparents⟩
  split at hjoin
  · exact hjoin
  · rw [h.fixed.2.2] at hjoin
    obtain ⟨headers, hsub, rfl⟩ := h
    exact absurd hjoin (hF.within headers hsub header hmem)

end Family

/-! ### The pool -/

section Pool

variable [HeaderHash] (genesis : Header) (k : UInt16) (limit : ℕ) (F : Finset Header)

/-- A parent that orphans may still be waiting for: it is not in the DAG, or is in the queue
of blocks that have joined. -/
def Open (S : DagSync) (queue : List BlockHash) (p : BlockHash) : Prop :=
  p ∉ S.dag.headers ∨ p ∈ queue

/-- What ties blocks and orphans together, with the blocks of `queue` joined but not followed
up, and the orphans of `children` about to be tried. The blocks of `got` have arrived. -/
structure Pool (got : BlockHash → Prop) (queue children : List BlockHash) (S : DagSync) :
    Prop where
  built : Built genesis k limit F S.dag
  orphan : ∀ {b orphan}, S.orphans.lookup b = some orphan →
    orphan.header ∈ F ∧ orphan.header.hash = b ∧ b ∉ S.dag.headers
  lacks : ∀ {b orphan}, S.orphans.lookup b = some orphan →
    b ∈ children ∨ ∃ p ∈ orphan.header.parents, S.Open queue p
  waits : ∀ {b orphan p}, S.orphans.lookup b = some orphan → p ∈ orphan.header.parents →
    S.Open queue p → ∃ set, S.waitingOn.lookup p = some set ∧ b ∈ set
  queue_mem : ∀ {b}, b ∈ queue → b ∈ S.dag.headers
  queue_nodup : queue.Nodup
  held : ∀ {b}, got b → b ∈ S.dag.headers ∨ b ∈ S.orphans

variable {genesis k limit F} {got : BlockHash → Prop} {queue children : List BlockHash}
  {parent child : BlockHash} {S T : DagSync}

theorem Pool.weaken {got' : BlockHash → Prop} (h : Pool genesis k limit F got queue children S)
    (hgot : ∀ b, got' b → got b ∨ b ∈ S.dag.headers ∨ b ∈ S.orphans) :
    Pool genesis k limit F got' queue children S where
  built := h.built
  orphan := h.orphan
  lacks := h.lacks
  waits := h.waits
  queue_mem := h.queue_mem
  queue_nodup := h.queue_nodup
  held hb := (hgot _ hb).elim h.held id

theorem Pool.congr (h : Pool genesis k limit F got queue children S)
    (hbuilt : Built genesis k limit F T.dag) (hheaders : T.dag.headers = S.dag.headers)
    (horphans : T.orphans = S.orphans) (hwaiting : T.waitingOn = S.waitingOn) :
    Pool genesis k limit F got queue children T := by
  obtain ⟨-, h₂, h₃, h₄, h₅, h₆, h₇⟩ := h
  -- what is open depends on the headers alone
  have hopen : ∀ {p}, T.Open queue p ↔ S.Open queue p := by
    intro p
    unfold Open
    rw [hheaders]
  refine ⟨hbuilt, ?_, ?_, ?_, ?_, h₆, ?_⟩
  · rw [hheaders, horphans]
    exact h₂
  · rw [horphans]
    simp only [hopen]
    exact h₃
  · rw [horphans, hwaiting]
    simp only [hopen]
    exact h₄
  · rw [hheaders]
    exact h₅
  · rw [hheaders, horphans]
    exact h₇

theorem Pool.samePool (h : Pool genesis k limit F got queue children S) (hT : S.SamePool T) :
    Pool genesis k limit F got queue children T :=
  h.congr (hT.dag ▸ h.built) (by rw [hT.dag]) hT.orphans hT.waitingOn

/-- **A block joins the DAG** and is appended to the queue. -/
theorem Pool.join (h : Pool genesis k limit F got queue children S) {header : Header}
    (hmem : header ∈ F) (hok : (S.dag.addBlock header).2 = .ok header.hash)
    (hdag : T.dag = (S.dag.addBlock header).1)
    (horphans : ∀ b, T.orphans.lookup b
      = if b = header.hash then none else S.orphans.lookup b)
    (hwaiting : T.waitingOn = S.waitingOn) {children' : List BlockHash}
    (hchildren : ∀ b ∈ children, b ≠ header.hash → b ∈ children') :
    Pool genesis k limit F (fun b => got b ∨ b = header.hash) (queue ++ [header.hash]) children'
      T := by
  obtain ⟨hnew, hheaders⟩ := DagStore.headers_addBlock_of_ok hok
  have hmem_dag : ∀ {b}, b ∈ T.dag.headers ↔ b = header.hash ∨ b ∈ S.dag.headers := by
    intro b
    rw [hdag, hheaders]
    exact Finmap.mem_insert
  -- what was open still is, the new block being in the queue
  have hopen : ∀ {p}, T.Open (queue ++ [header.hash]) p ↔ S.Open queue p := by
    intro p
    unfold Open
    rw [hmem_dag, List.mem_append, List.mem_singleton]
    refine ⟨?_, ?_⟩
    · rintro (hout | hin | rfl)
      · exact Or.inl fun hold => hout (Or.inr hold)
      · exact Or.inr hin
      · exact Or.inl hnew
    · rintro (hout | hin)
      · by_cases hp : p = header.hash
        · exact Or.inr (Or.inr hp)
        · exact Or.inl fun hnow => hnow.elim hp hout
      · exact Or.inr (Or.inl hin)
  have hold : ∀ {b orphan}, T.orphans.lookup b = some orphan →
      b ≠ header.hash ∧ S.orphans.lookup b = some orphan := by
    intro b orphan hl
    rw [horphans] at hl
    split at hl
    · cases hl
    · next hne => exact ⟨hne, hl⟩
  refine ⟨hdag ▸ h.built.addBlock hmem, ?_, ?_, ?_, ?_, ?_, ?_⟩
  · intro b orphan hl
    obtain ⟨hne, hl⟩ := hold hl
    obtain ⟨hF, hkey, hout⟩ := h.orphan hl
    exact ⟨hF, hkey, fun hin => (hmem_dag.mp hin).elim hne hout⟩
  · intro b orphan hl
    obtain ⟨hne, hl⟩ := hold hl
    obtain hchild | ⟨p, hp, hopenp⟩ := h.lacks hl
    · exact Or.inl (hchildren b hchild hne)
    · exact Or.inr ⟨p, hp, hopen.mpr hopenp⟩
  · intro b orphan p hl hp hopenp
    rw [hwaiting]
    exact h.waits (hold hl).2 hp (hopen.mp hopenp)
  · intro b hb
    obtain hb | hb := List.mem_append.mp hb
    · exact hmem_dag.mpr (Or.inr (h.queue_mem hb))
    · exact hmem_dag.mpr (Or.inl (List.mem_singleton.mp hb))
  · refine List.nodup_append.mpr ⟨h.queue_nodup, List.nodup_singleton _, ?_⟩
    rintro a ha b hb rfl
    exact hnew (List.mem_singleton.mp hb ▸ h.queue_mem ha)
  · rintro b (hb | rfl)
    · by_cases hne : b = header.hash
      · exact Or.inl (hmem_dag.mpr (Or.inl hne))
      · obtain hin | hin := h.held hb
        · exact Or.inl (hmem_dag.mpr (Or.inr hin))
        · refine Or.inr ?_
          rw [← Finmap.lookup_isSome, horphans, if_neg hne, Finmap.lookup_isSome]
          exact hin
    · exact Or.inl (hmem_dag.mpr (Or.inl rfl))

/-- **The head of the queue is followed up**: the orphans that waited on it are those to be
tried. -/
theorem Pool.release (h : Pool genesis k limit F got (parent :: queue) [] S)
    {set : Finset BlockHash} (hset : S.waitingOn.lookup parent = some set) :
    Pool genesis k limit F got queue (Maps.sortedKeys set) (S.released parent) := by
  obtain ⟨hnot, hnodup⟩ := List.nodup_cons.mp h.queue_nodup
  have hin : parent ∈ S.dag.headers := h.queue_mem List.mem_cons_self
  -- once `parent` is off the queue it is open no longer
  have hopen : ∀ {p}, S.Open queue p → p ≠ parent ∧ S.Open (parent :: queue) p := by
    rintro p (hout | hq)
    · exact ⟨fun he => hout (he ▸ hin), Or.inl hout⟩
    · exact ⟨fun he => hnot (he ▸ hq), Or.inr (List.mem_cons_of_mem _ hq)⟩
  refine ⟨h.built, h.orphan, ?_, ?_, fun hb => h.queue_mem (List.mem_cons_of_mem _ hb), hnodup,
    h.held⟩
  · intro b orphan hl
    obtain hchild | ⟨p, hp, hopenp⟩ := h.lacks hl
    · cases hchild
    · -- an orphan that lacked `parent` is among those whose turn it is
      by_cases hpar : p = parent
      · obtain ⟨set', hset', hb⟩ := h.waits hl hp hopenp
        rw [hpar, hset] at hset'
        obtain rfl := Option.some.inj hset'
        exact Or.inl (Maps.mem_sortedKeys.mpr hb)
      · refine Or.inr ⟨p, hp, hopenp.imp id fun hq => ?_⟩
        exact (List.mem_cons.mp hq).resolve_left hpar
  · intro b orphan p hl hp hopenp
    obtain ⟨hne, hopenp⟩ := hopen hopenp
    obtain ⟨set', hset', hb⟩ := h.waits hl hp hopenp
    refine ⟨set', ?_, hb⟩
    change (S.waitingOn.erase parent).lookup p = some set'
    rw [Maps.lookup_erase, if_neg hne]
    exact hset'

/-- Nobody waits on the head of the queue. -/
theorem Pool.idle (h : Pool genesis k limit F got (parent :: queue) [] S)
    (hset : S.waitingOn.lookup parent = none) : Pool genesis k limit F got queue [] S := by
  obtain ⟨hnot, hnodup⟩ := List.nodup_cons.mp h.queue_nodup
  refine ⟨h.built, h.orphan, ?_, ?_, fun hb => h.queue_mem (List.mem_cons_of_mem _ hb), hnodup,
    h.held⟩
  · intro b orphan hl
    obtain hchild | ⟨p, hp, hopenp⟩ := h.lacks hl
    · cases hchild
    · refine Or.inr ⟨p, hp, hopenp.imp id fun hq => (List.mem_cons.mp hq).resolve_left ?_⟩
      rintro rfl
      obtain ⟨set, hset', -⟩ := h.waits hl hp hopenp
      rw [hset] at hset'
      cases hset'
  · intro b orphan p hl hp hopenp
    exact h.waits hl hp (hopenp.imp id (List.mem_cons_of_mem _))

/-- An orphan about to be tried is passed over. -/
theorem Pool.pass (h : Pool genesis k limit F got queue (child :: children) S)
    (hpass : ∀ orphan, S.orphans.lookup child = some orphan →
      ∃ p ∈ orphan.header.parents, p ∉ S.dag.headers) :
    Pool genesis k limit F got queue children S := by
  refine ⟨h.built, h.orphan, ?_, h.waits, h.queue_mem, h.queue_nodup, h.held⟩
  intro b orphan hl
  obtain hchild | hlack := h.lacks hl
  · obtain rfl | hchild := List.mem_cons.mp hchild
    · obtain ⟨p, hp, hout⟩ := hpass orphan hl
      exact Or.inr ⟨p, hp, Or.inl hout⟩
    · exact Or.inl hchild
  · exact Or.inr hlack

/-- **A block is held as an orphan** while there is room. -/
theorem Pool.hold (h : Pool genesis k limit F got [] [] S) {header : Header} (hmem : header ∈ F)
    (hnew : header.hash ∉ S.dag.headers) (hmissing : ∃ p ∈ header.parents, p ∉ S.dag.headers)
    (hroom : S.orphans.keys.card < S.config.maxOrphans) (sender : PeerId) :
    Pool genesis k limit F (fun b => got b ∨ b = header.hash) [] []
      (S.storeOrphan header.hash header sender) := by
  have hstored : S.storeOrphan header.hash header sender = { S with
      waitingOn := S.wait header.hash header.parents
      orphans := S.orphans.insert header.hash ⟨header, sender⟩
      orphanOrder := S.orphanOrder ++ [header.hash] } := by
    unfold storeOrphan
    rw [evict_of_room hroom]
  have hlookup : ∀ b, (S.storeOrphan header.hash header sender).orphans.lookup b
      = if b = header.hash then some ⟨header, sender⟩ else S.orphans.lookup b := by
    intro b
    rw [hstored]
    exact Maps.lookup_insert _ _ _ _
  have hwaiting : ∀ p, (S.storeOrphan header.hash header sender).waitingOn.lookup p
      = if p ∈ header.parents ∧ p ∉ S.dag.headers then
          some (insert header.hash ((S.waitingOn.lookup p).getD ∅))
        else S.waitingOn.lookup p := by
    intro p
    rw [hstored]
    exact lookup_wait _ _ _
  have hdag : (S.storeOrphan header.hash header sender).dag = S.dag :=
    (onlyOrphans_storeOrphan _ _ _).dag
  -- the parts of the pool, each for the new orphan and for those held before
  refine ⟨?_, ?_, ?_, ?_, fun hb => absurd hb List.not_mem_nil, List.nodup_nil, ?_⟩
  · rw [hdag]
    exact h.built
  · intro b orphan hl
    rw [hdag]
    rw [hlookup] at hl
    split at hl
    · next he =>
      rw [← Option.some.inj hl]
      exact ⟨hmem, he.symm, he ▸ hnew⟩
    · exact h.orphan hl
  · intro b orphan hl
    unfold Open
    rw [hdag]
    rw [hlookup] at hl
    split at hl
    · obtain ⟨p, hp, hout⟩ := hmissing
      rw [← Option.some.inj hl]
      exact Or.inr ⟨p, hp, Or.inl hout⟩
    · exact h.lacks hl
  · intro b orphan p hl hp hopenp
    unfold Open at hopenp
    rw [hdag] at hopenp
    have hout : p ∉ S.dag.headers := hopenp.resolve_right List.not_mem_nil
    rw [hlookup] at hl
    rw [hwaiting]
    split at hl
    · next he =>
      obtain rfl := Option.some.inj hl
      -- the new orphan waits on every parent it lacks
      rw [if_pos ⟨hp, hout⟩]
      exact ⟨_, rfl, Finset.mem_insert.mpr (Or.inl he)⟩
    · obtain ⟨set, hset, hb⟩ := h.waits hl hp (Or.inl hout)
      split
      · rw [hset]
        exact ⟨_, rfl, Finset.mem_insert_of_mem hb⟩
      · exact ⟨set, hset, hb⟩
  · rw [hdag]
    rintro b (hb | rfl)
    · refine (h.held hb).imp id fun hin => ?_
      rw [← Finmap.lookup_isSome, hlookup]
      split
      · rfl
      · exact Finmap.lookup_isSome.mpr hin
    · refine Or.inr ?_
      rw [← Finmap.lookup_isSome, hlookup, if_pos rfl]
      rfl

end Pool

/-! ### The calls -/

section Calls

variable [HeaderHash] {genesis : Header} {k : UInt16} {limit : ℕ}
  {gate : Header → Except String Unit} {F : Finset Header} (hF : Family genesis k limit gate F)
  {got : BlockHash → Prop} {S : DagSync}

include hF

/-- An orphan that lacks no parent joins. -/
theorem Pool.joined {queue children : List BlockHash} {child : BlockHash}
    (h : Pool genesis k limit F got queue (child :: children) S) {orphan : Orphan}
    (hl : S.orphans.lookup child = some orphan) (hcomplete : S.Complete orphan) :
    Pool genesis k limit F got (queue ++ [child]) children (S.joined child orphan).1 := by
  obtain ⟨hmem, rfl, hout⟩ := h.orphan hl
  have hok := hF.addBlock_ok h.built hmem hout hcomplete
  have hjoin := h.join (T := { S.tried orphan.header.hash orphan with
      accepted := S.accepted ++ [orphan.header.hash] }) hmem hok rfl
    (fun b => Maps.lookup_erase _ _ _) rfl
    (fun b hb hne => (List.mem_cons.mp hb).resolve_left hne)
  exact (hjoin.weaken fun b hb => Or.inl (Or.inl hb)).samePool
    (onlyPeers_joined _ orphan).samePool

/-- **The queue is worked off.** -/
theorem Pool.resolveOrphansOf {hash : BlockHash} (h : Pool genesis k limit F got [hash] [] S) :
    Pool genesis k limit F got [] [] (S.resolveOrphansOf hash).1 := by
  -- the loop over the parents that have joined, and for each the loop over who waited
  refine resolveOrphansOf_induct (P := fun queue T _ => Pool genesis k limit F got queue [] T)
    ?_ ?_ S hash h
  · exact fun parent queue T _ hset hT => hT.idle hset
  · intro parent queue T actions set hset hT
    refine tryChildren_induct
      (P := fun children U _ queue => Pool genesis k limit F got queue children U)
      ?_ ?_ ?_ ?_ (Maps.sortedKeys set) (T.released parent) actions queue (hT.release hset)
    · intro child children U _ queue' hl hU
      refine hU.pass fun orphan hl' => ?_
      rw [hl] at hl'
      cases hl'
    · intro child children U _ queue' orphan hl hcomplete hU
      refine hU.pass fun orphan' hl' => ?_
      rw [hl] at hl'
      obtain rfl := Option.some.inj hl'
      unfold Complete at hcomplete
      push Not at hcomplete
      exact hcomplete
    · exact fun child children U _ queue' orphan hl hcomplete _ hU => hU.joined hF hl hcomplete
    · -- a complete orphan of the family is not refused
      rintro child children U _ queue' orphan hl hcomplete ⟨e, herror⟩ hU
      obtain ⟨hmem, rfl, hout⟩ := hU.orphan hl
      rw [hF.addBlock_ok hU.built hmem hout hcomplete] at herror
      cases herror

omit hF in
/-- The orphans are fewer than the family when one of its blocks is not among them. -/
theorem Pool.room (h : Pool genesis k limit F got [] [] S) {header : Header} (hmem : header ∈ F)
    (hnew : header.hash ∉ S.orphans) (hmax : F.card ≤ S.config.maxOrphans) :
    S.orphans.keys.card < S.config.maxOrphans := by
  have hsub : S.orphans.keys ⊆ (F.erase header).image Header.hash := by
    intro b hb
    obtain ⟨orphan, hl⟩ := Maps.mem_iff_exists_lookup.mp (Finmap.mem_keys.mp hb)
    obtain ⟨hF', rfl, -⟩ := h.orphan hl
    refine Finset.mem_image_of_mem _ (Finset.mem_erase.mpr ⟨?_, hF'⟩)
    rintro rfl
    exact hnew (Finmap.mem_keys.mp hb)
  calc S.orphans.keys.card
      ≤ ((F.erase header).image Header.hash).card := Finset.card_le_card hsub
    _ ≤ (F.erase header).card := Finset.card_image_le
    _ < F.card := Finset.card_erase_lt_of_mem hmem
    _ ≤ S.config.maxOrphans := hmax

/-- **A block of the family that is not held is admitted**, to the DAG or as an orphan. -/
theorem Pool.admitBlock (h : Pool genesis k limit F got [] [] S) {header : Header}
    (hmem : header ∈ F) (hnew : header.hash ∉ S.dag.headers) (hnew' : header.hash ∉ S.orphans)
    (hmax : F.card ≤ S.config.maxOrphans) (sender : PeerId) (now : ℕ) :
    Pool genesis k limit F (fun b => got b ∨ b = header.hash) [] []
      (S.admitBlock header sender now).1 := by
  by_cases hall : ∀ p ∈ header.parents, p ∈ S.dag.headers
  · -- every parent is there: it joins, and what waited for it follows
    have hok := hF.addBlock_ok h.built hmem hnew hall
    obtain ⟨hash, -, he⟩ | ⟨block, parent, herror, -⟩ | ⟨e, herror, -, -⟩ :=
      S.admit_cases header sender now
    · rw [he]
      have hself : ∀ b, S.orphans.lookup b
          = if b = header.hash then none else S.orphans.lookup b := by
        intro b
        split
        · next heq => rw [heq, Finmap.lookup_eq_none.mpr hnew']
        · rfl
      have hjoin : Pool genesis k limit F (fun b => got b ∨ b = header.hash)
          ([] ++ [header.hash]) [] _ := h.join (T := { S with
            dag := (S.dag.addBlock header).1
            accepted := S.accepted ++ [header.hash] }) hmem hok rfl hself rfl
          (fun b hb => absurd hb List.not_mem_nil)
      have hrelayed : Pool genesis k limit F (fun b => got b ∨ b = header.hash)
          [header.hash] [] (S.relayed header sender).1 :=
        hjoin.samePool (samePool_relayed header sender)
      exact hrelayed.resolveOrphansOf hF
    · rw [hok] at herror
      cases herror
    · rw [hok] at herror
      cases herror
  · -- a parent is missing: the header is refused and held
    push Not at hall
    obtain ⟨p, hp, hout⟩ := hall
    obtain ⟨missing, hadd⟩ := DagStore.addBlock_of_missing hnew (hF.parents_ne_nil hmem) hp hout
    have hheaders := DagStore.headers_addBlock_of_error hadd
    obtain ⟨hash, hok, -⟩ | ⟨block, parent, -, he⟩ | ⟨e, herror, hother, -⟩ :=
      S.admit_cases header sender now
    · rw [hadd] at hok
      cases hok
    · rw [he]
      have hsame : Pool genesis k limit F got [] []
          ({ S with dag := (S.dag.addBlock header).1 } : DagSync) :=
        h.congr (h.built.addBlock hmem) hheaders rfl rfl
      have hhold := hsame.hold hmem (by rw [hheaders]; exact hnew)
        ⟨p, hp, by rw [hheaders]; exact hout⟩ (h.room hmem hnew' hmax) sender
      exact hhold.samePool (samePool_requestFrom sender _ now)
    · rw [hadd] at herror
      exact absurd (Except.error.inj herror).symm (hother _ _)

omit hF in
variable (genesis k limit gate F) in
/-- The state of a node between calls. -/
structure Settled (got : BlockHash → Prop) (S : DagSync) : Prop where
  pool : Pool genesis k limit F got [] [] S
  gate_eq : S.gate = gate
  room : F.card ≤ S.config.maxOrphans

omit hF in
theorem Settled.congr {got' : BlockHash → Prop} {T : DagSync}
    (h : Settled genesis k limit gate F got S)
    (hpool : Pool genesis k limit F got' [] [] T) (hT : S.SameSetup T) :
    Settled genesis k limit gate F got' T :=
  ⟨hpool, hT.gate.trans h.gate_eq, by rw [hT.config]; exact h.room⟩

/-- **Delivery of blocks of the family.** -/
theorem Settled.onBlocks (h : Settled genesis k limit gate F got S) (peer : PeerId)
    {blocks : List BlockPayload} (hblocks : ∀ block ∈ blocks, block.header ∈ F) (now : ℕ) :
    Settled genesis k limit gate F (fun b => got b ∨ ∃ block ∈ blocks, block.hash = b)
      (S.onBlocks peer blocks now).1 := by
  -- with `rest` still to come, what has arrived is what `blocks` names and `rest` does not
  have hloop := deliver_induct peer now
    (P := fun rest T _ => (∀ block ∈ rest, block.header ∈ F) ∧
      Settled genesis k limit gate F
        (fun b => got b ∨ (∃ block ∈ blocks, block.hash = b) ∧ ∀ block ∈ rest, block.hash ≠ b) T)
    ?_ ?_ ?_ ?_ blocks S [] ⟨hblocks, h.congr (h.pool.weaken ?_) ⟨rfl, rfl⟩⟩
  · refine hloop.2.congr (hloop.2.pool.weaken fun b hb => Or.inl ?_) ⟨rfl, rfl⟩
    exact hb.imp id fun hin => ⟨hin, fun block hblock => absurd hblock List.not_mem_nil⟩
  · rintro block rest T _ hholds ⟨hrest, hT⟩
    have hpool := hT.pool.samePool (samePool_received peer block.hash)
    refine ⟨fun b hb => hrest b (List.mem_cons_of_mem _ hb), hT.congr (hpool.weaken ?_)
      (samePool_received peer block.hash).sameSetup⟩
    rintro b (hb | ⟨hin, hnot⟩)
    · exact Or.inl (Or.inl hb)
    · by_cases he : block.hash = b
      · exact Or.inr (he ▸ holds_eq_true_iff.mp hholds)
      · refine Or.inl (Or.inr ⟨hin, fun block' hmem => ?_⟩)
        obtain rfl | hmem := List.mem_cons.mp hmem
        · exact he
        · exact hnot block' hmem
  · rintro block rest T _ - ⟨reason, hgate⟩ - ⟨hrest, hT⟩
    rw [hT.gate_eq, hF.gate_ok (hrest block List.mem_cons_self)] at hgate
    cases hgate
  · rintro block rest T _ - ⟨reason, hgate⟩ - ⟨hrest, hT⟩
    rw [hT.gate_eq, hF.gate_ok (hrest block List.mem_cons_self)] at hgate
    cases hgate
  · rintro block rest T _ hholds - ⟨hrest, hT⟩
    have hsame : T.SamePool (T.received peer block.hash) := samePool_received peer block.hash
    rw [hsame.holds_eq, holds_eq_false_iff] at hholds
    have hdag : (T.taken peer block).dag = T.dag := hsame.dag
    have horphans : (T.taken peer block).orphans = T.orphans := hsame.orphans
    have htaken := hT.congr (hT.pool.congr (T := T.taken peer block) (hdag ▸ hT.pool.built)
      (by rw [hdag]) horphans hsame.waitingOn) (sameSetup_taken peer block)
    have hadmitted := htaken.pool.admitBlock hF (hrest block List.mem_cons_self)
      (by rw [hdag]; exact hholds.1) (by rw [horphans]; exact hholds.2) htaken.room peer now
    refine ⟨fun b hb => hrest b (List.mem_cons_of_mem _ hb), htaken.congr (hadmitted.weaken ?_)
      (sameSetup_admitBlock block.header peer now)⟩
    rintro b (hb | ⟨hin, hnot⟩)
    · exact Or.inl (Or.inl (Or.inl hb))
    · by_cases he : block.hash = b
      · exact Or.inl (Or.inr he.symm)
      · refine Or.inl (Or.inl (Or.inr ⟨hin, fun block' hmem => ?_⟩))
        obtain rfl | hmem := List.mem_cons.mp hmem
        · exact he
        · exact hnot block' hmem
  · rintro b (hb | ⟨⟨block, hmem, he⟩, hnot⟩)
    · exact Or.inl hb
    · exact absurd he (hnot block hmem)

end Calls

/-! ### Runs -/

section Runs

variable [HeaderHash]

/-- The headers a call delivers: those of a batch from a ready peer. -/
def delivered (S : DagSync) : SyncCall → List Header
  | .message peer (.blocks blocks) _ =>
    if S.isReady peer then blocks.map BlockPayload.header else []
  | _ => []

/-- The headers a run delivers. -/
def deliveries (S : DagSync) : List SyncCall → List Header
  | [] => []
  | call :: calls => S.delivered call ++ deliveries (S.step call) calls

/-- The run delivers the members of `F` and no other block: in any order and any batches, any
number of times, among any other messages, ticks, connections and disconnections. -/
structure Delivers (F : Finset Header) (S : DagSync) (calls : List SyncCall) : Prop where
  from_peers : ∀ block, SyncCall.localBlock block ∉ calls
  all : ∀ header, header ∈ S.deliveries calls ↔ header ∈ F

variable {genesis : Header} {k : UInt16} {limit : ℕ} {gate : Header → Except String Unit}
  {F : Finset Header} (hF : Family genesis k limit gate F) {got : BlockHash → Prop} {S : DagSync}

include hF

/-- One call. -/
theorem Settled.step (h : Settled genesis k limit gate F got S) {call : SyncCall}
    (hlocal : ∀ block, call ≠ .localBlock block) (hsub : ∀ header ∈ S.delivered call, header ∈ F) :
    Settled genesis k limit gate F
      (fun b => got b ∨ ∃ header ∈ S.delivered call, header.hash = b) (S.step call) := by
  obtain ⟨peer, blocks, now, rfl, hready, hstep⟩ | ⟨block, rfl⟩ | ⟨hsame, hquiet⟩ :=
    S.step_cases call
  · -- a frame of blocks from a ready peer is what delivers
    have hheaders : S.delivered (.message peer (.blocks blocks) now)
        = blocks.map BlockPayload.header := if_pos hready
    rw [hheaders] at hsub ⊢
    rw [hstep]
    have hdelivered := h.onBlocks hF peer
      (fun block hmem => hsub _ (List.mem_map_of_mem hmem)) now
    refine hdelivered.congr (hdelivered.pool.weaken fun b hb => Or.inl ?_) ⟨rfl, rfl⟩
    simpa [BlockPayload.hash] using hb
  · exact absurd rfl (hlocal block)
  · -- the call delivers nothing
    have hnone : S.delivered call = [] := by
      unfold delivered
      split
      · next peer blocks now => exact if_neg (by simp [hquiet peer blocks now rfl])
      · rfl
    refine h.congr ((h.pool.samePool hsame).weaken fun b hb => Or.inl ?_) hsame.sameSetup
    rw [hnone] at hb
    exact hb.resolve_right fun ⟨_, hmem, _⟩ => List.not_mem_nil hmem

/-- **A run of deliveries.** -/
theorem Settled.run {calls : List SyncCall} (h : Settled genesis k limit gate F got S)
    (hlocal : ∀ block, SyncCall.localBlock block ∉ calls)
    (hsub : ∀ header ∈ S.deliveries calls, header ∈ F) :
    Settled genesis k limit gate F
      (fun b => got b ∨ ∃ header ∈ S.deliveries calls, header.hash = b)
      (Runs.after DagSync.step S calls) := by
  -- call by call; what has been delivered so far grows by what the call delivers
  induction calls generalizing S got with
  | nil => exact h.congr (h.pool.weaken fun b hb => Or.inl (hb.resolve_right
      fun ⟨_, hmem, _⟩ => List.not_mem_nil hmem)) ⟨rfl, rfl⟩
  | cons call calls ih =>
    have hstep := h.step hF
      (fun block (he : call = _) => hlocal block (he ▸ List.mem_cons_self))
      (fun header hmem => hsub header (List.mem_append_left _ hmem))
    have hrest := ih hstep (fun block hmem => hlocal block (List.mem_cons_of_mem _ hmem))
      (fun header hmem => hsub header (List.mem_append_right _ hmem))
    refine hrest.congr (hrest.pool.weaken fun b hb => Or.inl ?_) ⟨rfl, rfl⟩
    obtain hb | ⟨header, hmem, he⟩ := hb
    · exact Or.inl (Or.inl hb)
    · obtain hmem | hmem := List.mem_append.mp hmem
      · exact Or.inl (Or.inr ⟨header, hmem, he⟩)
      · exact Or.inr ⟨header, hmem, he⟩

/-- **Nothing is left waiting.** Once all of the family has arrived it is in the DAG. -/
theorem Pool.complete (h : Pool genesis k limit F got [] [] S)
    (hgot : ∀ header ∈ F, got header.hash) :
    (∀ header ∈ F, header.hash ∈ S.dag.headers) ∧ S.orphans = ∅ := by
  obtain ⟨rank, hrank⟩ := hF.acyclic
  -- by rank: a block's parents come before it
  have hin : ∀ n, ∀ header ∈ F, rank header.hash = n → header.hash ∈ S.dag.headers := by
    intro n
    induction n using Nat.strong_induction_on with
    | _ n ih =>
      intro header hmem hn
      obtain hdag | horphan := h.held (hgot header hmem)
      · exact hdag
      · -- an orphan lacks a parent, which lies closer to genesis
        obtain ⟨orphan, hl⟩ := Maps.mem_iff_exists_lookup.mp horphan
        obtain ⟨hmem', hkey, -⟩ := h.orphan hl
        obtain rfl := hF.hash_inj hmem' hmem hkey
        obtain hchild | ⟨p, hp, hopen⟩ := h.lacks hl
        · cases hchild
        · have hout : p ∉ S.dag.headers := hopen.resolve_right List.not_mem_nil
          obtain rfl | ⟨header', hmem'', rfl⟩ := hF.closed hmem hp
          · refine absurd ?_ hout
            rw [← h.built.fixed.1]
            exact h.built.valid.genesis_mem
          · exact absurd (ih _ (hn ▸ hrank _ hmem _ hp) header' hmem'' rfl) hout
  refine ⟨fun header hmem => hin _ header hmem rfl, Finmap.ext_lookup fun b => ?_⟩
  rw [Finmap.lookup_empty]
  cases hl : S.orphans.lookup b with
  | none => rfl
  | some orphan =>
    obtain ⟨hmem, rfl, hout⟩ := h.orphan hl
    exact absurd (hin _ _ hmem rfl) hout

/-- The blocks of a node to which the family has been delivered. -/
theorem Pool.lookup_iff (h : Pool genesis k limit F got [] [] S)
    (hgot : ∀ header ∈ F, got header.hash) (b : BlockHash) (header : Header) :
    S.dag.headers.lookup b = some header ↔
      b = genesis.hash ∧ header = genesis ∨ header ∈ F ∧ header.hash = b := by
  refine ⟨h.built.stored, ?_⟩
  -- the genesis and every member of the family are stored, each under its own hash
  rintro (⟨rfl, rfl⟩ | ⟨hmem, rfl⟩)
  · have hgenesis := h.built.valid.genesis_mem
    rw [h.built.fixed.1] at hgenesis
    obtain ⟨header', hl⟩ := Maps.mem_iff_exists_lookup.mp hgenesis
    obtain ⟨-, rfl⟩ | ⟨hmem, he⟩ := h.built.stored hl
    · exact hl
    · exact absurd he (hF.ne_genesis hmem)
  · obtain ⟨header', hl⟩ := Maps.mem_iff_exists_lookup.mp ((h.complete hF hgot).1 header hmem)
    obtain ⟨he, -⟩ | ⟨hmem', he⟩ := h.built.stored hl
    · exact absurd he (hF.ne_genesis hmem)
    · exact hF.hash_inj hmem' hmem he ▸ hl

omit hF in
/-- A node that knows genesis only. -/
theorem settled_new (config : SyncConfig) (hroom : F.card ≤ config.maxOrphans) :
    Settled genesis k limit gate F (fun _ => False)
      (new (DagStore.new genesis k limit) gate config) := by
  have hnone : ∀ {b orphan}, (new (DagStore.new genesis k limit) gate config).orphans.lookup b
      ≠ some orphan := fun hl => Finmap.notMem_empty (Maps.mem_of_lookup hl)
  refine ⟨⟨⟨[], fun h hmem => absurd hmem List.not_mem_nil, rfl⟩, fun hl => absurd hl hnone,
    fun hl => absurd hl hnone, fun hl => absurd hl hnone, fun hb => absurd hb List.not_mem_nil,
    List.nodup_nil, fun hb => hb.elim⟩, rfl, hroom⟩

/-- The node at the end of a run. -/
theorem Delivers.settled {config : SyncConfig} (hroom : F.card ≤ config.maxOrphans)
    {calls : List SyncCall}
    (h : Delivers F (new (DagStore.new genesis k limit) gate config) calls) :
    Pool genesis k limit F (fun b => ∃ header ∈ F, header.hash = b) [] []
      (Runs.after DagSync.step (new (DagStore.new genesis k limit) gate config) calls) := by
  have hrun := (settled_new config hroom).run hF h.from_peers fun header => (h.all header).mp
  refine hrun.pool.weaken fun b ⟨header, hmem, he⟩ => Or.inl (Or.inr ⟨header, ?_, he⟩)
  exact (h.all header).mpr hmem

/-- **Delivery confluence.** However the members of a family are delivered to a node, its DAG
is genesis and the family in the end, and no orphan is left. Any two nodes agree on the DAG,
its tips and every selected parent chain. -/
theorem delivery_confluent {config : SyncConfig} (hroom : F.card ≤ config.maxOrphans)
    {calls : List SyncCall}
    (hcalls : Delivers F (new (DagStore.new genesis k limit) gate config) calls) :
    (∀ b header,
      (Runs.after DagSync.step (new (DagStore.new genesis k limit) gate config) calls).dag.headers.lookup b
          = some header ↔
        b = genesis.hash ∧ header = genesis ∨ header ∈ F ∧ header.hash = b) ∧
    (Runs.after DagSync.step (new (DagStore.new genesis k limit) gate config) calls).orphans = ∅ ∧
    ∀ config' calls', F.card ≤ config'.maxOrphans →
      Delivers F (new (DagStore.new genesis k limit) gate config') calls' →
      (Runs.after DagSync.step (new (DagStore.new genesis k limit) gate config) calls).dag.SameView
        (Runs.after DagSync.step (new (DagStore.new genesis k limit) gate config') calls').dag := by
  have hgot : ∀ header ∈ F, ∃ header' ∈ F, header'.hash = header.hash :=
    fun header hmem => ⟨header, hmem, rfl⟩
  have hpool := hcalls.settled hF hroom
  refine ⟨hpool.lookup_iff hF hgot, (hpool.complete hF hgot).2, ?_⟩
  intro config' calls' hroom' hcalls'
  have hpool' := hcalls'.settled hF hroom'
  -- both stores hold the genesis and the family
  have hheaders : (Runs.after DagSync.step (new (DagStore.new genesis k limit) gate config)
      calls).dag.headers = (Runs.after DagSync.step
        (new (DagStore.new genesis k limit) gate config') calls').dag.headers := by
    refine Finmap.ext_lookup fun b => Option.ext fun header => ?_
    rw [hpool.lookup_iff hF hgot, hpool'.lookup_iff hF hgot]
  obtain ⟨hg, hk, hl⟩ := hpool.built.fixed
  obtain ⟨hg', hk', hl'⟩ := hpool'.built.fixed
  obtain ⟨hdata, htips, hvirtual, hchain⟩ := hpool.built.valid.eq_of_headers hpool'.built.valid
    (hk.trans hk'.symm) (hg.trans hg'.symm) (hl.trans hl'.symm) hheaders
  exact ⟨hheaders, hdata, htips, hvirtual, hchain⟩

end Runs

section Reversed

open Sample

/-- Two blocks, the second on the first. -/
def pair : Finset Header := {block 1 [0] 0x2000ffff, block 2 [1] 0x2000ffff}

/-- A peer connects, shakes hands and delivers blocks. -/
def deliverAll (batches : List (List Header)) : List SyncCall :=
  [.connect 7, .message 7 (.version protocolVersion (hashOf 0) []) 0] ++
    batches.map fun batch => .message 7 (.blocks (batch.map fun header => ⟨header, []⟩)) 0

/-- A peer that is ready still is after a batch. -/
theorem isReady_batch {S : DagSync} (hready : S.isReady 7 = true) (batch : List BlockPayload) :
    (S.step (.message 7 (.blocks batch) 0)).isReady 7 = true :=
  ((sameHandshakes_onMessage 7 0 rfl).isReady 7).trans hready

/-- What is delivered in batches by a ready peer. -/
theorem deliveries_batches {S : DagSync} (hready : S.isReady 7 = true) (batches : List (List Header)) :
    S.deliveries (batches.map fun batch =>
      .message 7 (.blocks (batch.map fun header => ⟨header, []⟩)) 0) = batches.flatten := by
  induction batches generalizing S with
  | nil => rfl
  | cons batch batches ih =>
    have hfirst : S.delivered (.message 7 (.blocks (batch.map fun header => ⟨header, []⟩)) 0)
        = batch := by
      refine (if_pos hready).trans ?_
      rw [List.map_map]
      exact List.map_id batch
    rw [List.map_cons, List.flatten_cons]
    exact congrArg₂ (· ++ ·) hfirst (ih (isReady_batch hready _))

theorem deliveries_deliverAll (batches : List (List Header)) :
    lone.deliveries (deliverAll batches) = batches.flatten :=
  deliveries_batches (S := Runs.after step lone
    [.connect 7, .message 7 (.version protocolVersion (hashOf 0) []) 0]) (by decide +kernel) batches

/-- The peer is ready in the end. -/
theorem isReady_deliverAll (batches : List (List Header)) :
    (Runs.after step lone (deliverAll batches)).isReady 7 = true := by
  have hgreeted : (Runs.after step lone
      [.connect 7, .message 7 (.version protocolVersion (hashOf 0) []) 0]).isReady 7 = true := by
    decide +kernel
  unfold deliverAll
  rw [Runs.after_append]
  generalize Runs.after step lone _ = S at *
  induction batches generalizing S with
  | nil => exact hgreeted
  | cons batch batches ih => exact ih _ (isReady_batch hgreeted _)

theorem family_pair : Family root 2 10 (fun _ => .ok ()) pair := by
  have hpair : ∀ {h}, h ∈ pair → h = block 1 [0] 0x2000ffff ∨ h = block 2 [1] 0x2000ffff := by
    intro h hmem
    simpa [pair] using hmem
  refine ⟨?_, ?_, ?_, ?_, ⟨fun b => b.val, ?_⟩, fun _ => rfl, ?_⟩
  · -- the two hashes differ
    intro h h' hmem hmem' he
    obtain rfl | rfl := hpair hmem <;> obtain rfl | rfl := hpair hmem'
    · rfl
    · exact absurd he (by decide +kernel)
    · exact absurd he (by decide +kernel)
    · rfl
  · intro h hmem
    obtain rfl | rfl := hpair hmem
    · decide +kernel
    · decide +kernel
  · intro h hmem
    obtain rfl | rfl := hpair hmem
    · decide +kernel
    · decide +kernel
  · intro h p hmem hp
    obtain rfl | rfl := hpair hmem
    · exact Or.inl (List.mem_singleton.mp hp)
    · refine Or.inr ⟨block 1 [0] 0x2000ffff, by decide +kernel, ?_⟩
      exact (List.mem_singleton.mp hp).symm
  · intro h hmem p hp
    obtain rfl | rfl := hpair hmem
    · obtain rfl := List.mem_singleton.mp hp
      decide +kernel
    · obtain rfl := List.mem_singleton.mp hp
      decide +kernel
  · -- with one parent the mergeset is empty
    intro headers _ h hmem
    have hvalid := (DagStore.new_valid root 2 10).addBlocks headers
    obtain rfl | rfl := hpair hmem
    · exact hvalid.addBlock_single_ne_too_large rfl _ _
    · exact hvalid.addBlock_single_ne_too_large rfl _ _

/-- The second block arrives first and waits, and arrives again; another node is sent both in
one batch. -/
theorem delivery_confluent_pair :
    (Runs.after DagSync.step lone (deliverAll
        [[block 2 [1] 0x2000ffff], [block 2 [1] 0x2000ffff], [block 1 [0] 0x2000ffff]])).orphans = ∅ ∧
      (Runs.after DagSync.step lone (deliverAll
        [[block 2 [1] 0x2000ffff], [block 2 [1] 0x2000ffff], [block 1 [0] 0x2000ffff]])).dag.SameView
        (Runs.after DagSync.step lone (deliverAll
          [[block 1 [0] 0x2000ffff, block 2 [1] 0x2000ffff]])).dag := by
  have hdelivers : ∀ batches : List (List Header),
      (∀ header, header ∈ batches.flatten ↔ header ∈ pair) →
      Delivers pair lone (deliverAll batches) := by
    intro batches hmem
    refine ⟨fun block hlocal => ?_, fun header => by rw [deliveries_deliverAll, hmem]⟩
    simp [deliverAll] at hlocal
  have hfirst := hdelivers
    [[block 2 [1] 0x2000ffff], [block 2 [1] 0x2000ffff], [block 1 [0] 0x2000ffff]] fun header => by
      simp only [pair, List.flatten_cons, List.flatten_nil, List.append_nil, List.mem_append,
        List.mem_singleton, Finset.mem_insert, Finset.mem_singleton]
      tauto
  have hsecond := hdelivers [[block 1 [0] 0x2000ffff, block 2 [1] 0x2000ffff]] fun header => by
    simp [pair]
  obtain ⟨-, horphans, hview⟩ := delivery_confluent family_pair (by decide) hfirst
  exact ⟨horphans, hview _ _ (by decide) hsecond⟩

end Reversed

end Chainname.DagSync
