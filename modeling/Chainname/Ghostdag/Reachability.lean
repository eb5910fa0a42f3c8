import Chainname.Library.Memo
import Chainname.Ghostdag.Store

/-!
# Ancestry, and why the memoised search answers it

`Edge D p c` is a declared parent edge of a stored block, `Anc D a d` its reflexive
transitive closure: `a` is `d` or lies in its past. Genesis is the root of a store.
Nothing lies behind it, whatever its header declares, and no function of the store ever
follows a parent edge out of it.

The search behind `isAncestorOf` prunes parents that are no deeper than the block looked
for. The prune is sound because topological height strictly increases along an edge
(`Layered`): `search_iff` shows that the pruned search finds exactly the ancestors.
`CacheOk` is what the memo table owes in return for being believed: its entries are about
stored blocks and are true. It is preserved by every query (`Layered.answers`), so
a query on stored blocks answers `Anc`, whatever was asked before.
-/

namespace Chainname.DagStore

open Memo

variable (D : DagStore)

/-- `p` is a declared parent of the stored block `c`, which is not genesis. -/
def Edge (p c : BlockHash) : Prop :=
  ∃ header, D.headers.lookup c = some header ∧ c ≠ D.genesis ∧ p ∈ header.parents

/-- `a` is `d`, or lies in its past. -/
def Anc (a d : BlockHash) : Prop := Relation.ReflTransGen D.Edge a d

/-- Neither block is in the other's past. -/
def Concurrent (a b : BlockHash) : Prop := ¬ D.Anc a b ∧ ¬ D.Anc b a

/-- The blocks of the store are rooted in genesis: it is stored, it has height zero, every
other block has a parent, and every declared parent is stored. -/
structure Rooted : Prop where
  genesis_mem : D.genesis ∈ D.headers
  genesis_height : D.topologicalHeight D.genesis = 0
  has_parent : ∀ {b}, b ∈ D.headers → b ≠ D.genesis → ∃ p, D.Edge p b
  parent_mem : ∀ {p c}, D.Edge p c → p ∈ D.headers

/-- Topological height strictly increases along an edge, and is zero off the store. -/
structure Layered : Prop extends D.Rooted where
  height_lt : ∀ {p c}, D.Edge p c → D.topologicalHeight p < D.topologicalHeight c
  mem_of_height : ∀ {b}, 0 < D.topologicalHeight b → b ∈ D.headers

variable {D}

theorem Anc.refl (a : BlockHash) : D.Anc a a := Relation.ReflTransGen.refl

theorem Anc.trans {a b c : BlockHash} (h : D.Anc a b) (h' : D.Anc b c) : D.Anc a c :=
  Relation.ReflTransGen.trans h h'

theorem Edge.anc {p c : BlockHash} (h : D.Edge p c) : D.Anc p c := Relation.ReflTransGen.single h

/-- A proper ancestor is an ancestor of some parent. -/
theorem Anc.exists_parent {a d : BlockHash} (h : D.Anc a d) (hne : a ≠ d) :
    ∃ p, D.Edge p d ∧ D.Anc a p := by
  rcases Relation.ReflTransGen.cases_tail h with rfl | ⟨p, hp, hpd⟩
  · exact absurd rfl hne
  · exact ⟨p, hpd, hp⟩

/-- A proper ancestor is a parent of some ancestor. -/
theorem Anc.exists_child {a d : BlockHash} (h : D.Anc a d) (hne : a ≠ d) :
    ∃ c, D.Edge a c ∧ D.Anc c d := by
  rcases Relation.ReflTransGen.cases_head h with rfl | ⟨c, hc, hcd⟩
  · exact absurd rfl hne
  · exact ⟨c, hc, hcd⟩

theorem Edge.mem {p c : BlockHash} (h : D.Edge p c) : c ∈ D.headers := by
  obtain ⟨header, hl, -, -⟩ := h
  exact Maps.mem_of_lookup hl

theorem Edge.ne_genesis {p c : BlockHash} (h : D.Edge p c) : c ≠ D.genesis := by
  obtain ⟨_, -, hne, -⟩ := h
  exact hne

/-- Nothing lies behind genesis. -/
theorem Anc.eq_genesis {a : BlockHash} (h : D.Anc a D.genesis) : a = D.genesis := by
  by_contra hne
  obtain ⟨p, hp, -⟩ := h.exists_parent hne
  exact hp.ne_genesis rfl

theorem Anc.mem (hD : D.Rooted) {a d : BlockHash} (h : D.Anc a d) (hd : d ∈ D.headers) :
    a ∈ D.headers := by
  by_cases hne : a = d
  · rw [hne]; exact hd
  · obtain ⟨c, hc, -⟩ := h.exists_child hne
    exact hD.parent_mem hc

section Layered

variable (hD : D.Layered)

include hD

theorem Anc.height_le {a d : BlockHash} (h : D.Anc a d) :
    D.topologicalHeight a ≤ D.topologicalHeight d := by
  induction h with
  | refl => exact le_rfl
  | tail _ hcd ih => exact ih.trans (hD.height_lt hcd).le

theorem Anc.height_lt {a d : BlockHash} (h : D.Anc a d) (hne : a ≠ d) :
    D.topologicalHeight a < D.topologicalHeight d := by
  obtain ⟨p, hp, hap⟩ := h.exists_parent hne
  exact lt_of_le_of_lt (hap.height_le hD) (hD.height_lt hp)

/-- Parent edges descend, so they can be followed only finitely often. -/
theorem Layered.wellFounded : WellFounded D.Edge :=
  Subrelation.wf (r := InvImage (· < ·) D.topologicalHeight) (fun h => hD.height_lt h)
    (InvImage.wf _ Nat.lt_wfRel.wf)

/-- Genesis is behind every block. -/
theorem Layered.genesis_anc {b : BlockHash} (hb : b ∈ D.headers) : D.Anc D.genesis b := by
  induction b using hD.wellFounded.induction with
  | _ b ih =>
    by_cases hg : b = D.genesis
    · rw [hg]
      exact Anc.refl _
    · obtain ⟨p, hp⟩ := hD.has_parent hb hg
      exact (ih p hp (hD.parent_mem hp)).trans hp.anc

end Layered

/-! ### The pruned search -/

section Search

variable (D)

/-- The declared parents of a stored block, none for an unknown one. -/
def parentsOf (b : BlockHash) : List BlockHash := (D.headers.lookup b).elim [] Header.parents

/-- The parents the search for a block of height `ancestorHeight` follows. -/
def deeper (ancestorHeight : ℕ) (b : BlockHash) : List BlockHash :=
  (D.parentsOf b).filter fun p => ancestorHeight < D.topologicalHeight p

variable {D}

theorem edge_iff {p c : BlockHash} : D.Edge p c ↔ c ≠ D.genesis ∧ p ∈ D.parentsOf c := by
  unfold Edge parentsOf
  cases D.headers.lookup c with
  | none => simp
  | some header => simp

/-- The search asks, of each block a full breadth-first search pops, whether the block
looked for is one of its parents. Leaving at the first hit does not change the answer. -/
theorem search_eq (ancestor : BlockHash) (ancestorHeight : ℕ) :
    ∀ (n : ℕ) (seen : Finset BlockHash) (queue : List BlockHash),
      D.search ancestor ancestorHeight n seen queue = true ↔
        ∃ x ∈ Worklist.visit (D.deeper ancestorHeight) n seen queue, ancestor ∈ D.parentsOf x := by
  intro n
  induction n with
  | zero => intro seen queue; simp [search, Worklist.visit]
  | succ n ih =>
    intro seen queue
    cases queue with
    | nil => simp [search, Worklist.visit]
    | cons current queue =>
      unfold search Worklist.visit
      -- a block that is not stored has no parents and leads nowhere
      cases hl : D.headers.lookup current with
      | none =>
        have hp : D.parentsOf current = [] := by unfold parentsOf; rw [hl]; rfl
        have hd : D.deeper ancestorHeight current = [] := by unfold deeper; rw [hp]; rfl
        rw [hd]
        simp [hp, ih, Worklist.push]
      | some header =>
        have hp : D.parentsOf current = header.parents := by unfold parentsOf; rw [hl]; rfl
        have hd : D.deeper ancestorHeight current =
            header.parents.filter fun p => ancestorHeight < D.topologicalHeight p := by
          unfold deeper; rw [hp]
        rw [hd]
        -- the source stops at a parent that is the ancestor; the search meets it one step later
        simp only [List.mem_cons, exists_eq_or_imp, hp]
        split
        · next h => simp [h]
        · next h => rw [ih]; simp [h]

/-- **The pruned search is exact.** From a block deeper than the one looked for, the
search finds it exactly when it is an ancestor: an ancestor is never pruned away, as
every block on a path to it is deeper. -/
theorem search_iff (hD : D.Layered) {ancestor descendant : BlockHash}
    (hd : D.topologicalHeight ancestor < D.topologicalHeight descendant) :
    D.search ancestor (D.topologicalHeight ancestor) D.len {descendant} [descendant] = true ↔
      D.Anc ancestor descendant := by
  set h := D.topologicalHeight ancestor with hh
  have hdm : descendant ∈ D.headers := hD.mem_of_height (lt_of_le_of_lt (Nat.zero_le _) hd)
  have hdeep : ∀ {x y}, y ∈ D.deeper h x → y ∈ D.parentsOf x ∧ h < D.topologicalHeight y := by
    intro x y hy
    simpa [deeper] using hy
  have hreach : ∀ x, x ∈ Worklist.visit (D.deeper h) D.len {descendant} [descendant] ↔
      Relation.ReflTransGen (fun a b => b ∈ D.deeper h a) descendant x := by
    intro x
    have hU : ∀ x ∈ D.headers.keys, ∀ y ∈ D.deeper h x, y ∈ D.headers.keys := fun x _ y hy =>
      Finmap.mem_keys.mpr (hD.mem_of_height (lt_of_le_of_lt (Nat.zero_le _) (hdeep hy).2))
    have hq : ∀ q ∈ [descendant], q ∈ D.headers.keys := fun q hq => by
      rw [List.mem_singleton.mp hq]
      exact Finmap.mem_keys.mpr hdm
    have hm := Worklist.mem_visit_iff hU hq (List.nodup_singleton _) (n := D.len) le_rfl (x := x)
    simpa using hm
  rw [search_eq]
  refine ⟨?_, ?_⟩
  · rintro ⟨x, hx, hax⟩
    -- every popped block is an ancestor of the start, deeper than the block looked for
    have hpath : D.Anc x descendant ∧ h < D.topologicalHeight x := by
      rw [hreach] at hx
      clear hax
      induction hx with
      | refl => exact ⟨Anc.refl _, hd⟩
      | tail _ hbc ih =>
        obtain ⟨hanc, hlt⟩ := ih
        obtain ⟨hpar, hlt'⟩ := hdeep hbc
        refine ⟨Anc.trans (Edge.anc (edge_iff.mpr ⟨?_, hpar⟩)) hanc, hlt'⟩
        rintro rfl
        rw [hD.genesis_height] at hlt
        exact Nat.not_lt_zero _ hlt
    refine Anc.trans (Edge.anc (edge_iff.mpr ⟨?_, hax⟩)) hpath.1
    rintro rfl
    rw [hD.genesis_height] at hpath
    exact Nat.not_lt_zero _ hpath.2
  · intro hanc
    obtain ⟨c, hac, hcd⟩ := hanc.exists_child (fun he => by rw [hh, he] at hd; exact lt_irrefl _ hd)
    refine ⟨c, (hreach c).mpr ?_, (edge_iff.mp hac).2⟩
    have hclt : h < D.topologicalHeight c := hD.height_lt hac
    -- the path from `descendant` down to `c` survives the prune
    clear hac
    induction hcd using Relation.ReflTransGen.head_induction_on with
    | refl => exact Relation.ReflTransGen.refl
    | head hxy _ ih =>
      refine Relation.ReflTransGen.tail (ih (hclt.trans (hD.height_lt hxy))) ?_
      unfold deeper
      exact List.mem_filter.mpr ⟨(edge_iff.mp hxy).2, decide_eq_true hclt⟩

end Search

/-! ### The memo table -/

/-- A truthful memo table: every entry is about stored blocks, and right. -/
def CacheOk (D : DagStore) (cache : ReachCache) : Prop :=
  ∀ d a answer, cache.lookup (d, a) = some answer →
    a ∈ D.headers ∧ d ∈ D.headers ∧ (answer = true ↔ D.Anc a d)

theorem CacheOk.empty : D.CacheOk ∅ := by
  intro d a answer h
  rw [Finmap.lookup_empty] at h
  exact absurd h (by simp)

/-- Caching a right answer keeps the table truthful, also when it is dropped first. -/
theorem CacheOk.remember {cache : ReachCache} (hc : D.CacheOk cache) {a d : BlockHash}
    {answer : Bool} (ha : a ∈ D.headers) (hd : d ∈ D.headers) (h : answer = true ↔ D.Anc a d) :
    D.CacheOk ((DagStore.remember d a answer).run cache).2 := by
  intro d' a' answer' hl
  have hrun : ((DagStore.remember d a answer).run cache).2
      = Finmap.insert (d, a) answer (if cacheCapacity ≤ cache.keys.card then ∅ else cache) := rfl
  rw [hrun, Maps.lookup_insert] at hl
  -- the pair just written, then what survives of the older entries
  split at hl
  · next heq =>
    obtain ⟨rfl, rfl⟩ := Prod.mk.inj heq
    obtain rfl := Option.some.inj hl
    exact ⟨ha, hd, h⟩
  · -- a full cache is emptied before the write
    split at hl
    · exact CacheOk.empty d' a' answer' hl
    · exact hc d' a' answer' hl

open Classical in
/-- The answer a query should give. -/
noncomputable def truth (D : DagStore) (a d : BlockHash) : Id Bool := decide (D.Anc a d)

theorem truth_iff {a d : BlockHash} : D.truth a d = true ↔ D.Anc a d := by
  classical
  exact decide_eq_true_iff

/-- A computation that reads the memo table first. -/
theorem run_get_bind {α : Type} (f : ReachCache → StateM ReachCache α) (cache : ReachCache) :
    (get >>= f : StateM ReachCache α).run cache = (f cache).run cache := rfl

/-- **A query is exact** if what the memo table says about the pair is right, and it leaves
the table as good as caching a right answer does. -/
theorem isAncestorOf_computes_of (hD : D.Layered) {C : ReachCache → Prop} {a d : BlockHash}
    (hread : ∀ cache answer, a ≠ d → C cache → cache.lookup (d, a) = some answer →
      (answer = true ↔ D.Anc a d))
    (hremember : ∀ cache answer, C cache → (answer = true ↔ D.Anc a d) →
      C ((DagStore.remember d a answer).run cache).2) :
    Computes C (D.isAncestorOf a d) (D.truth a d) := by
  intro cache hc
  by_cases had : a = d
  · have hrun : (D.isAncestorOf a d).run cache = (true, cache) := by
      unfold isAncestorOf
      rw [if_pos had]
      rfl
    rw [hrun]
    exact ⟨(truth_iff.mpr (had ▸ Anc.refl a)).symm, hc⟩
  cases hl : cache.lookup (d, a) with
  | some cached =>
    have hrun : (D.isAncestorOf a d).run cache = (cached, cache) := by
      unfold isAncestorOf
      rw [if_neg had]
      rw [run_get_bind, hl]
      rfl
    rw [hrun]
    refine ⟨?_, hc⟩
    rw [Bool.eq_iff_iff, truth_iff]
    exact hread cache cached had hc hl
  | none =>
    by_cases hh : D.topologicalHeight d ≤ D.topologicalHeight a
    · have hrun : (D.isAncestorOf a d).run cache
          = (false, ((DagStore.remember d a false).run cache).2) := by
        unfold isAncestorOf
        rw [if_neg had]
        rw [run_get_bind, hl]
        dsimp only
        rw [if_pos hh]
        rfl
      -- a block no deeper than another has it in its past only if they are equal
      have hno : ¬ D.Anc a d := fun hanc => absurd (hanc.height_lt hD had) (not_lt.mpr hh)
      rw [hrun]
      refine ⟨?_, hremember cache _ hc ?_⟩
      · rw [Bool.eq_iff_iff, truth_iff]
        simpa using hno
      · simpa using hno
    · have hrun : (D.isAncestorOf a d).run cache
          = (D.search a (D.topologicalHeight a) D.len {d} [d],
              ((DagStore.remember d a
                (D.search a (D.topologicalHeight a) D.len {d} [d])).run cache).2) := by
        unfold isAncestorOf
        rw [if_neg had]
        rw [run_get_bind, hl]
        dsimp only
        rw [if_neg hh]
        rfl
      have hs := search_iff hD (not_le.mp hh)
      rw [hrun]
      refine ⟨?_, hremember cache _ hc hs⟩
      rw [Bool.eq_iff_iff, truth_iff]
      exact hs

/-- Queries on stored blocks are exact as long as the memo table satisfies `C`, which they
keep. -/
def Answers (D : DagStore) (C : ReachCache → Prop) : Prop :=
  ∀ a d, a ∈ D.headers → d ∈ D.headers → Computes C (D.isAncestorOf a d) (D.truth a d)

/-- **A query on stored blocks is exact**, and leaves the memo table truthful. -/
theorem Layered.answers (hD : D.Layered) : D.Answers D.CacheOk := fun a d ha hd =>
  isAncestorOf_computes_of hD (fun _ _ _ hc hl => (hc d a _ hl).2.2)
    fun _ _ hc h => hc.remember ha hd h

end Chainname.DagStore
