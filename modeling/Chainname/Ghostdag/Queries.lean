import Chainname.Ghostdag.Growth
import Chainname.Library.Runs

/-!
# Reachability queries under any history

Anybody may ask a store whether one block is an ancestor of another, also about blocks it
does not hold. The search is exact about those, too: nothing is behind a block that is not
stored, and nothing stored is behind one that is not. But the answer is remembered, and the
memo table is not touched when a block joins. An answer about a block that has not joined
yet is a "no" (`Unstored`), and it is still a "no" when the block is there.

`exact_iff_unasked` is the account of it: throughout a run every query about stored blocks
is exact, exactly when no block joins while the table holds an answer about it and one of
its ancestors.
-/

namespace Chainname

/-- What may happen to a store: a block is added, or ancestry is queried. -/
inductive DagCall where
  | addBlock (header : Header)
  | isAncestorOf (ancestor descendant : BlockHash)

namespace DagStore

open Memo

/-- What `is_ancestor_of` answers. -/
def answer (D : DagStore) (ancestor descendant : BlockHash) : Bool :=
  ((D.isAncestorOf ancestor descendant).run D.reachability).1

/-- Every query about stored blocks is answered by their ancestry. -/
def Exact (D : DagStore) : Prop :=
  ∀ a d, a ∈ D.headers → d ∈ D.headers → (D.answer a d = true ↔ D.Anc a d)

/-- What the memo table says of two different blocks is right. -/
def CacheTrue (D : DagStore) (cache : ReachCache) : Prop :=
  ∀ d a answer, a ≠ d → cache.lookup (d, a) = some answer → (answer = true ↔ D.Anc a d)

/-- What the memo table says of blocks that are not both stored is "no". -/
def Unstored (D : DagStore) : Prop :=
  ∀ d a answer, a ≠ d → D.reachability.lookup (d, a) = some answer →
    a ∉ D.headers ∨ d ∉ D.headers → answer = false

section Calls

variable [HeaderHash]

/-- One call. -/
def call (D : DagStore) : DagCall → DagStore
  | .addBlock header => (D.addBlock header).1
  | .isAncestorOf a d =>
    { D with reachability := ((D.isAncestorOf a d).run D.reachability).2 }

/-- A block that joins has not been asked about: the memo table holds no answer about it and
one of its ancestors. -/
def Unasked (D : DagStore) : DagCall → Prop
  | .addBlock header => (D.addBlock header).2 = .ok header.hash →
    ∀ p ∈ header.parents, ∀ a, D.Anc a p → (header.hash, a) ∉ (D.addBlock header).1.reachability
  | .isAncestorOf _ _ => True

omit [HeaderHash] in
theorem CacheTrue.empty (D : DagStore) : D.CacheTrue ∅ := by
  intro d a answer _ h
  rw [Finmap.lookup_empty] at h
  exact absurd h (by simp)

omit [HeaderHash] in
/-- **Any query is exact** under a true memo table, and leaves a true one. -/
theorem Layered.computes {D : DagStore} (hD : D.Layered) (a d : BlockHash) :
    Computes D.CacheTrue (D.isAncestorOf a d) (D.truth a d) := by
  refine isAncestorOf_computes_of hD (fun cache answer had hc hl => hc d a answer had hl) ?_
  intro cache answer hc hanswer d' a' answer' hne hl
  have hrun : ((DagStore.remember d a answer).run cache).2
      = Finmap.insert (d, a) answer (if cacheCapacity ≤ cache.keys.card then ∅ else cache) := rfl
  rw [hrun, Maps.lookup_insert] at hl
  split at hl
  · next heq =>
    obtain ⟨rfl, rfl⟩ := Prod.mk.inj heq
    rw [← Option.some.inj hl]
    exact hanswer
  · split at hl
    · exact CacheTrue.empty D d' a' answer' hne hl
    · exact hc d' a' answer' hne hl

omit [HeaderHash] in
/-- A true memo table says "no" of blocks that are not both stored. -/
theorem CacheTrue.eq_false {D : DagStore} (hD : D.Layered) {cache : ReachCache}
    (h : D.CacheTrue cache) {d a : BlockHash} {answer : Bool} (hne : a ≠ d)
    (hl : cache.lookup (d, a) = some answer) (hout : a ∉ D.headers ∨ d ∉ D.headers) :
    answer = false := by
  refine Bool.eq_false_iff.mpr fun htrue => ?_
  have hanc := (h d a answer hne hl).mp htrue
  -- a proper ancestor has an edge into it, so both are stored
  obtain ⟨p, hp, -⟩ := hanc.exists_parent hne
  rcases hout with ha | hd
  · exact ha (hanc.mem hD.toRooted hp.mem)
  · exact hd hp.mem

omit [HeaderHash] in
/-- Under a true memo table every query is exact. -/
theorem CacheTrue.exact {D : DagStore} (hD : D.Layered) (h : D.CacheTrue D.reachability) :
    D.Exact := by
  intro a d _ _
  unfold answer
  rw [(hD.computes a d).fst h]
  exact truth_iff

omit [HeaderHash] in
/-- If every query about stored blocks is exact, the memo table is true of them. -/
theorem Exact.cacheTrue {D : DagStore} (hD : D.Layered) (h : D.Exact) (hout : D.Unstored) :
    D.CacheTrue D.reachability := by
  intro d a answer hne hl
  by_cases hin : a ∈ D.headers ∧ d ∈ D.headers
  · have hanswer : D.answer a d = answer := by
      unfold DagStore.answer isAncestorOf
      rw [if_neg hne, run_get_bind, hl]
      rfl
    rw [← hanswer]
    exact h a d hin.1 hin.2
  · have hor : a ∉ D.headers ∨ d ∉ D.headers := not_and_or.mp hin
    rw [hout d a answer hne hl hor]
    refine iff_of_false Bool.false_ne_true fun hanc => ?_
    obtain ⟨p, hp, -⟩ := hanc.exists_parent hne
    exact hor.elim (fun ha => ha (hanc.mem hD.toRooted hp.mem)) fun hd => hd hp.mem

/-! ### A block joins -/

section Join

variable {D : DagStore} (hD : D.Sound) {header : Header} (hf : D.Fresh header)
  {data : GhostdagData} (cache : ReachCache)

include hD hf

/-- What lies behind a block that has just joined. -/
theorem anc_install_iff {a : BlockHash} (hne : a ≠ header.hash) :
    (D.install header.hash header data).Anc a header.hash ↔ ∃ p ∈ header.parents, D.Anc a p := by
  have hagree : AgreeOn (· ∈ D.headers) D (D.install header.hash header data) :=
    agree_install hD hf
  have hg := hf.ne_genesis hD
  refine ⟨?_, ?_⟩
  · intro hanc
    obtain ⟨p, hp, hap⟩ := hanc.exists_parent hne
    obtain hold | ⟨-, hparent⟩ := (edge_install hf hg).mp hp
    · exact absurd hold.mem hf.not_mem
    · exact ⟨p, hparent, (hagree.anc_iff (hf.parent_mem p hparent)).mpr hap⟩
  · rintro ⟨p, hp, hap⟩
    exact ((hagree.anc_iff (hf.parent_mem p hp)).mp hap).trans
      ((edge_install hf hg).mpr (Or.inr ⟨rfl, hp⟩)).anc

/-- What lies behind the other blocks is what did. -/
theorem anc_install_of_ne {a d : BlockHash} (hd : d ≠ header.hash) :
    (D.install header.hash header data).Anc a d ↔ D.Anc a d := by
  have hagree : AgreeOn (· ∈ D.headers) D (D.install header.hash header data) :=
    agree_install hD hf
  by_cases hmem : d ∈ D.headers
  · exact (hagree.anc_iff hmem).symm
  by_cases had : a = d
  · rw [had]
    exact iff_of_true (Anc.refl d) (Anc.refl d)
  · -- nothing is behind a block that is not stored
    refine iff_of_false (fun hanc => ?_) fun hanc => ?_
    · obtain ⟨p, hp, -⟩ := hanc.exists_parent had
      exact (mem_install.mp hp.mem).elim hd hmem
    · obtain ⟨p, hp, -⟩ := hanc.exists_parent had
      exact hmem hp.mem

/-- **The memo table stays true when a block joins** exactly when it says nothing about the
block and its ancestors. -/
theorem cacheTrue_install_iff (hcache : D.CacheTrue cache) :
    (D.install header.hash header data).CacheTrue cache ↔
      ∀ p ∈ header.parents, ∀ a, D.Anc a p → (header.hash, a) ∉ cache := by
  have hne : ∀ {p a}, p ∈ header.parents → D.Anc a p → a ≠ header.hash := by
    rintro p a hp ha rfl
    exact hf.not_mem (ha.mem hD.layered.toRooted (hf.parent_mem p hp))
  refine ⟨?_, ?_⟩
  · intro h p hp a ha hmem
    obtain ⟨answer, hl⟩ := Maps.mem_iff_exists_lookup.mp hmem
    have hfalse := hcache.eq_false hD.layered (hne hp ha) hl (Or.inr hf.not_mem)
    have htrue := (h _ _ _ (hne hp ha) hl).mpr
      ((anc_install_iff hD hf (hne hp ha)).mpr ⟨p, hp, ha⟩)
    rw [hfalse] at htrue
    exact Bool.false_ne_true htrue
  · intro h d a answer had hl
    by_cases hd : d = header.hash
    · subst hd
      rw [hcache.eq_false hD.layered had hl (Or.inr hf.not_mem), anc_install_iff hD hf had]
      refine iff_of_false Bool.false_ne_true ?_
      rintro ⟨p, hp, ha⟩
      exact h p hp a ha (Maps.mem_of_lookup hl)
    · rw [anc_install_of_ne hD hf hd]
      exact hcache d a answer had hl

end Join

/-! ### Runs -/

/-- What holds of the store as long as queries are exact. -/
structure Consistent (D : DagStore) : Prop where
  sound : D.Sound
  unstored : D.Unstored

theorem Consistent.of_cacheTrue {D : DagStore} (hD : D.Sound)
    (h : D.CacheTrue D.reachability) : D.Consistent :=
  ⟨hD, fun _ _ _ hne hl hout => h.eq_false hD.layered hne hl hout⟩

/-- **What one call does** to a consistent store whose queries are exact: it leaves one, and
its queries are exact exactly when the block that joins has not been asked about. -/
theorem Consistent.call {D : DagStore} (hD : D.Consistent) (hexact : D.Exact) (c : DagCall) :
    (D.call c).Consistent ∧ ((D.call c).Exact ↔ D.Unasked c) := by
  have hlayered := hD.sound.layered
  have htrue := hexact.cacheTrue hlayered hD.unstored
  cases c with
  | isAncestorOf a d =>
    have hsound := hD.sound.withCache ((D.isAncestorOf a d).run D.reachability).2
    have hcache : D.CacheTrue ((D.isAncestorOf a d).run D.reachability).2 :=
      (hlayered.computes a d).snd htrue
    exact ⟨.of_cacheTrue hsound hcache, iff_of_true (CacheTrue.exact hsound.layered hcache) trivial⟩
  | addBlock header =>
    obtain ⟨cache, hcache, ⟨e, he⟩ | ⟨data, hf, hcomp, he⟩⟩ :=
      hD.sound.addBlock_cases (fun a d _ _ => hlayered.computes a d) htrue header
    · have hsound := hD.sound.withCache cache
      have hcall : D.call (.addBlock header) = { D with reachability := cache } :=
        congrArg Prod.fst he
      rw [hcall]
      refine ⟨.of_cacheTrue hsound hcache, ?_⟩
      refine iff_of_true (CacheTrue.exact hsound.layered hcache) fun hok => ?_
      rw [he] at hok
      exact absurd hok (by simp)
    · -- the store under the table that the call leaves
      have hsound := hD.sound.withCache cache
      have hf' : ({ D with reachability := cache } : DagStore).Fresh header :=
        ⟨hf.not_mem, hf.parents_ne_nil, hf.parent_mem⟩
      rw [hD.sound.computeGhostdag_withCache cache hf.parent_mem hf.parents_ne_nil] at hcomp
      have hsound' := hsound.install hf' hcomp
      have hiff : (({ D with reachability := cache } : DagStore).install header.hash header
          data).CacheTrue cache ↔ _ := cacheTrue_install_iff hsound hf' cache hcache
      have hcall : D.call (.addBlock header)
          = ({ D with reachability := cache } : DagStore).install header.hash header data :=
        congrArg Prod.fst he
      have hunasked : D.Unasked (.addBlock header) ↔
          ∀ p ∈ header.parents, ∀ a, D.Anc a p → (header.hash, a) ∉ cache := by
        show ((D.addBlock header).2 = _ → _) ↔ _
        rw [he]
        exact ⟨fun h => h rfl, fun h _ => h⟩
      -- no entry says that a block not stored is an ancestor
      have hout : Unstored (({ D with reachability := cache } : DagStore).install header.hash
          header data) := by
        intro d a answer hne hl hor
        refine hcache.eq_false hlayered hne hl (hor.imp ?_ ?_)
        · exact fun h hmem => h (mem_install.mpr (Or.inr hmem))
        · exact fun h hmem => h (mem_install.mpr (Or.inr hmem))
      rw [hcall, hunasked]
      refine ⟨⟨hsound', hout⟩, fun h => ?_, fun h => ?_⟩
      · exact hiff.mp (h.cacheTrue hsound'.layered hout)
      · exact CacheTrue.exact hsound'.layered (hiff.mpr h)

/-- **Queries are exact throughout a run** exactly when no block joins while the memo table
holds an answer about it and one of its ancestors. -/
theorem exact_iff_unasked (genesis : Header) (k : UInt16) (limit : ℕ) (calls : List DagCall) :
    Runs.Throughout call Exact (new genesis k limit) calls ↔
      Runs.Each call Unasked (new genesis k limit) calls := by
  have hvalid := new_valid genesis k limit
  have htrue : (new genesis k limit).CacheTrue (new genesis k limit).reachability :=
    CacheTrue.empty _
  have hlegal : ∀ (D : DagStore) (calls : List DagCall), Runs.Each call (fun _ _ => True) D calls := by
    intro D calls
    induction calls generalizing D with
    | nil => exact trivial
    | cons c calls ih => exact ⟨trivial, ih (D.call c)⟩
  refine Runs.throughout_iff_each (I := Consistent) (fun D c hD hexact _ _ => ?_)
    (fun D c hD hexact _ => ?_) (.of_cacheTrue hvalid.toSound htrue)
    (CacheTrue.exact hvalid.layered htrue) (hlegal _ calls)
  · exact (hD.call hexact c).1
  · exact (hD.call hexact c).2

end Calls

/-! ### An early question -/

open Sample

/-- Asking about a block before it joins, and adding it. -/
def askedEarly : List DagCall :=
  [.isAncestorOf (hashOf 0) (hashOf 1), .addBlock (block 1 [0] 0x2000ffff)]

/-- A block that was asked about before it joined has no ancestors, the store says. -/
theorem early_question_remembered :
    (Runs.after call (new root 2 10) askedEarly).Anc (hashOf 0) (hashOf 1) ∧
      (Runs.after call (new root 2 10) askedEarly).answer (hashOf 0) (hashOf 1) = false ∧
      ¬ Runs.Throughout call Exact (new root 2 10) askedEarly := by
  have hheader : (Runs.after call (new root 2 10) askedEarly).headers.lookup (hashOf 1)
      = some (block 1 [0] 0x2000ffff) := by decide +kernel
  have hgenesis : hashOf 1 ≠ (Runs.after call (new root 2 10) askedEarly).genesis := by
    decide +kernel
  have hanswer : (Runs.after call (new root 2 10) askedEarly).answer (hashOf 0) (hashOf 1)
      = false := by decide +kernel
  have hstored : hashOf 0 ∈ (Runs.after call (new root 2 10) askedEarly).headers := by
    decide +kernel
  have hanc : (Runs.after call (new root 2 10) askedEarly).Anc (hashOf 0) (hashOf 1) :=
    Edge.anc ⟨_, hheader, hgenesis, List.mem_singleton_self _⟩
  refine ⟨hanc, hanswer, fun h => ?_⟩
  have htrue := (h.last _ _ hstored (Maps.mem_of_lookup hheader)).mpr hanc
  rw [hanswer] at htrue
  exact Bool.false_ne_true htrue

end DagStore

end Chainname
