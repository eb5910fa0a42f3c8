import Mathlib.Data.List.Destutter
import Mathlib.Data.Set.Card
import Chainname.Ghostdag.Growth

/-!
# Mining on the tips

A miner names the sixteen heaviest tips as parents. The store accepts any header over stored
parents that is new and whose merge set is within the limit, and of these three the miner
sees to the first two only: how many blocks lie behind the chosen tips and not behind the
heaviest of them is a property of the whole store.

`Valid.addBlock_ok_iff` says when a header is accepted at all, `mined_accepted_iff` what is
left of it for a mined one. A store whose two branches are both longer than the limit
refuses every mined block, and its tips stay as they are.
-/

namespace Chainname.DagStore

/-- How many parents a miner names at most. -/
def maxMinedParents : ℕ := 16

/-- The parents `mine_once` chooses: the heaviest tips, sorted and deduplicated. -/
def miningParents (D : DagStore) : List BlockHash :=
  ((D.sortedTips.take maxMinedParents).insertionSort (· ≤ ·)).destutter (· ≠ ·)

/-- The header that is mined. Its other fields come from the clock, from the executor and
from the search for a nonce. -/
def minedHeader (D : DagStore) (template : Header) : Header :=
  { template with parents := D.miningParents }

/-- The merge set of a block with these parents. -/
def mergesetOf (D : DagStore) (parents : List BlockHash) : Set BlockHash :=
  {x | D.InMergeset parents (D.selectParent parents) x}

/-! ### When a header is accepted -/

section Accept

variable [HeaderHash] {D : DagStore}

omit [HeaderHash] in
/-- The merge set the search collects has as many members as the merge set. -/
theorem length_collected (hD : D.Layered) {parents : List BlockHash}
    (hp : ∀ p ∈ parents, p ∈ D.headers) (hne : parents ≠ []) :
    (D.collected parents (D.selectParent parents)).length = (D.mergesetOf parents).ncard := by
  have hs := hp _ (selectParent_mem D hne)
  have hset : D.mergesetOf parents
      = ↑(D.collected parents (D.selectParent parents)).toFinset := by
    ext x
    rw [List.coe_toFinset]
    exact (mem_collected hD hs hp).symm
  rw [hset, Set.ncard_coe_finset, List.toFinset_card_of_nodup (nodup_collected hD hs hp)]

/-- Data is computed for a header that can join unless its merge set is too large. -/
theorem Sound.computeGhostdag_of_fresh (hD : D.Sound) {header : Header} (hf : D.Fresh header) :
    (D.mergesetOf header.parents).ncard ≤ D.mergesetSizeLimit ∧
        (∃ data, D.computeGhostdag (m := Id) D.truth header = .ok data) ∨
      D.mergesetSizeLimit < (D.mergesetOf header.parents).ncard ∧
        D.computeGhostdag (m := Id) D.truth header
          = .error (.mergesetTooLarge header.hash D.mergesetSizeLimit) := by
  have hs := hf.parent_mem _ (selectParent_mem D hf.parents_ne_nil)
  obtain ⟨selectedData, hdata⟩ := Maps.mem_iff_exists_lookup.mp (hD.data_mem.mpr hs)
  rw [← length_collected hD.layered hf.parent_mem hf.parents_ne_nil]
  unfold computeGhostdag
  dsimp only
  rw [hdata]
  dsimp only
  rw [Memo.id_bind, orderedMergeset_truth]
  -- past its guards `compute_ghostdag` fails on the limit alone
  by_cases hlimit : D.mergesetSizeLimit
      < (D.collected header.parents (D.selectParent header.parents)).length
  · rw [if_pos hlimit]
    exact Or.inr ⟨hlimit, rfl⟩
  · rw [if_neg hlimit]
    exact Or.inl ⟨not_lt.mp hlimit, _, rfl⟩

/-- A new header that lacks a parent is refused for that. -/
theorem addBlock_of_missing {header : Header} (hnew : header.hash ∉ D.headers)
    (hparents : header.parents ≠ []) {p : BlockHash} (hp : p ∈ header.parents)
    (hmissing : p ∉ D.headers) :
    ∃ parent, (D.addBlock header).2 = .error (.missingParent header.hash parent) := by
  unfold addBlock
  dsimp only
  rw [if_neg hnew, if_neg hparents]
  cases hfind : header.parents.find? fun p => p ∉ D.headers with
  | some parent => exact ⟨parent, rfl⟩
  | none =>
    have hall := List.find?_eq_none.mp hfind p hp
    simp only [decide_eq_true_eq, not_not] at hall
    exact absurd hall hmissing

/-- A header that none of the three guards of `add_block` refuses can join. -/
theorem fresh_of_passes {header : Header}
    (hpresent : (D.addBlock header).2 ≠ .error (.alreadyPresent header.hash))
    (hparents : (D.addBlock header).2 ≠ .error (.noParents header.hash))
    (hmissing : ∀ parent, (D.addBlock header).2 ≠ .error (.missingParent header.hash parent)) :
    D.Fresh header := by
  -- the guards in the source's order, each past the ones before it
  have hnew : header.hash ∉ D.headers := by
    intro hmem
    refine hpresent ?_
    unfold addBlock
    dsimp only
    rw [if_pos hmem]
  have hne : header.parents ≠ [] := by
    intro hnil
    refine hparents ?_
    unfold addBlock
    dsimp only
    rw [if_neg hnew, if_pos hnil]
  refine ⟨hnew, hne, fun p hp => ?_⟩
  by_contra hp'
  obtain ⟨parent, hrefused⟩ := addBlock_of_missing hnew hne hp hp'
  exact hmissing parent hrefused

/-- What is accepted could join. -/
theorem fresh_of_addBlock_ok {header : Header} {hash : BlockHash}
    (h : (D.addBlock header).2 = .ok hash) : D.Fresh header := by
  refine fresh_of_passes ?_ ?_ fun parent => ?_ <;> rw [h] <;> nofun

/-- Only a header that can join is refused for its merge set. -/
theorem fresh_of_mergesetTooLarge {header : Header} {block : BlockHash} {limit : ℕ}
    (h : (D.addBlock header).2 = .error (.mergesetTooLarge block limit)) : D.Fresh header := by
  refine fresh_of_passes ?_ ?_ fun parent => ?_ <;> rw [h] <;> nofun

/-- What becomes of a header that can join. -/
theorem Valid.addBlock_of_can_join (hD : D.Valid) {header : Header} (hf : D.Fresh header) :
    (D.addBlock header).2 =
      if (D.mergesetOf header.parents).ncard ≤ D.mergesetSizeLimit then .ok header.hash
      else .error (.mergesetTooLarge header.hash D.mergesetSizeLimit) := by
  obtain ⟨cache, -, hadd⟩ := hD.addBlock_of_fresh hD.layered.answers hD.cache_ok hf
  obtain ⟨hle, data, hcomp⟩ | ⟨hlt, hcomp⟩ := hD.computeGhostdag_of_fresh hf
  · rw [hadd, hcomp, if_pos hle]
  · rw [hadd, hcomp, if_neg (not_le.mpr hlt)]

/-- **When `add_block` accepts**: the header can join and its merge set is within the limit. -/
theorem Valid.addBlock_ok_iff (hD : D.Valid) (header : Header) :
    (D.addBlock header).2 = .ok header.hash ↔
      D.Fresh header ∧ (D.mergesetOf header.parents).ncard ≤ D.mergesetSizeLimit := by
  refine ⟨?_, ?_⟩
  · intro hok
    have hf := fresh_of_addBlock_ok hok
    rw [hD.addBlock_of_can_join hf] at hok
    split at hok
    · next hle => exact ⟨hf, hle⟩
    · cases hok
  · rintro ⟨hf, hle⟩
    rw [hD.addBlock_of_can_join hf, if_pos hle]

/-- A header with a single parent has nothing to merge. -/
theorem Valid.addBlock_single_ne_too_large (hD : D.Valid) {header : Header} {p : BlockHash}
    (hparents : header.parents = [p]) (block : BlockHash) (limit : ℕ) :
    (D.addBlock header).2 ≠ .error (.mergesetTooLarge block limit) := by
  intro h
  have hempty : D.mergesetOf header.parents = ∅ := by
    refine Set.eq_empty_iff_forall_notMem.mpr fun x hx => ?_
    obtain ⟨⟨q, hq, hxq⟩, hnot⟩ := hx
    rw [hparents] at hq hnot
    exact hnot (List.mem_singleton.mp hq ▸ hxq)
  rw [hD.addBlock_of_can_join (fresh_of_mergesetTooLarge h), hempty, Set.ncard_empty,
    if_pos (Nat.zero_le _)] at h
  cases h

/-- A header that is refused for a missing parent is new and lacks one. -/
theorem Valid.missing_of_addBlock (hD : D.Valid) {header : Header} {block parent : BlockHash}
    (h : (D.addBlock header).2 = .error (.missingParent block parent)) :
    header.hash ∉ D.headers ∧ ∃ p ∈ header.parents, p ∉ D.headers := by
  -- a fresh header is never refused with this error
  by_cases hf : D.Fresh header
  · rw [hD.addBlock_of_can_join hf] at h
    split at h
    · cases h
    · cases h
  · unfold DagStore.addBlock at h
    dsimp only at h
    split at h
    · cases h
    · next hnew =>
      split at h
      · cases h
      · next hparents =>
        refine ⟨hnew, ?_⟩
        by_contra hall
        push Not at hall
        exact hf ⟨hnew, hparents, hall⟩

/-- The memo table has no say in what is refused. -/
theorem Valid.addBlock_withCache (hD : D.Valid) {cache : ReachCache}
    (hD' : ({ D with reachability := cache } : DagStore).Valid) (header : Header) :
    (({ D with reachability := cache } : DagStore).addBlock header).2 = (D.addBlock header).2 := by
  by_cases hf : D.Fresh header
  · have hf' : ({ D with reachability := cache } : DagStore).Fresh header :=
      ⟨hf.not_mem, hf.parents_ne_nil, hf.parent_mem⟩
    rw [hD.addBlock_of_can_join hf, hD'.addBlock_of_can_join hf']
    rfl
  · unfold DagStore.addBlock
    dsimp only
    split
    · rfl
    · next hnew =>
      split
      · rfl
      · next hparents =>
        cases hfind : header.parents.find? fun p => p ∉ D.headers with
        | some parent => rfl
        | none =>
          -- nothing is missing, so the header could join
          refine absurd ⟨hnew, hparents, fun p hp => ?_⟩ hf
          simpa using List.find?_eq_none.mp hfind p hp

/-- A refusal leaves all but the memo table as it was. -/
theorem addBlock_of_error {header : Header} {e : DagError} (h : (D.addBlock header).2 = .error e) :
    (D.addBlock header).1 = { D with reachability := (D.addBlock header).1.reachability } := by
  unfold DagStore.addBlock at h ⊢
  dsimp only at h ⊢
  -- each refusal returns the store as it was, but for what the search memoised
  split
  · rfl
  · next hnew =>
    split
    · rfl
    · next hparents =>
      rw [if_neg hnew, if_neg hparents] at h
      split
      · rfl
      · next hfind =>
        rw [hfind] at h
        dsimp only at h
        split
        · rfl
        · next hrun =>
          rw [hrun] at h
          cases h

end Accept

/-! ### The chosen parents -/

section Parents

/-- The tips are no two alike, so that deduplicating drops none of them. -/
theorem miningParents_perm (D : DagStore) :
    D.miningParents.Perm (D.sortedTips.take maxMinedParents) := by
  have hperm := List.perm_insertionSort (· ≤ ·) (D.sortedTips.take maxMinedParents)
  have hnodup : (D.sortedTips.take maxMinedParents).Nodup :=
    (nodup_sortedTips D).sublist (List.take_sublist _ _)
  have hchain := (hperm.nodup_iff.mpr hnodup).isChain
  unfold miningParents
  rw [List.destutter_of_isChain _ _ hchain]
  exact hperm

theorem mem_tips_of_mem_miningParents {D : DagStore} {p : BlockHash} (hp : p ∈ D.miningParents) :
    p ∈ D.tips :=
  mem_sortedTips.mp (List.mem_of_mem_take ((miningParents_perm D).mem_iff.mp hp))

variable [HeaderHash] {D : DagStore} (hD : D.Valid)

include hD

theorem Valid.miningParents_ne_nil : D.miningParents ≠ [] := by
  obtain ⟨b, hb⟩ := hD.tips_nonempty
  have hlength : 0 < D.sortedTips.length := List.length_pos_of_mem (mem_sortedTips.mpr hb)
  refine List.ne_nil_of_length_pos ?_
  rw [(miningParents_perm D).length_eq, List.length_take]
  exact lt_min (by decide) hlength

/-- What is left to ask of a mined header: that it is new. -/
theorem Valid.fresh_minedHeader_iff (template : Header) :
    D.Fresh (D.minedHeader template) ↔ (D.minedHeader template).hash ∉ D.headers := by
  refine ⟨Fresh.not_mem, fun hnew => ⟨hnew, hD.miningParents_ne_nil, fun p hp => ?_⟩⟩
  exact (hD.mem_tips.mp (mem_tips_of_mem_miningParents hp)).1

end Parents

/-! ### Whether a miner gets on -/

section Mine

variable [HeaderHash]

/-- **When a mined block is accepted.** In every store that `add_block` builds, the header
over the sixteen heaviest tips is accepted exactly when it is new and no more blocks than the
limit lie behind these tips outside the past of the heaviest. -/
theorem mined_accepted_iff (genesis : Header) (k : UInt16) (limit : ℕ) (headers : List Header)
    (template : Header) :
    (((new genesis k limit).addBlocks headers).addBlock
        (((new genesis k limit).addBlocks headers).minedHeader template)).2
      = .ok (((new genesis k limit).addBlocks headers).minedHeader template).hash ↔
    (((new genesis k limit).addBlocks headers).minedHeader template).hash
        ∉ ((new genesis k limit).addBlocks headers).headers ∧
      (((new genesis k limit).addBlocks headers).mergesetOf
        ((new genesis k limit).addBlocks headers).miningParents).ncard ≤ limit := by
  have hD := (new_valid genesis k limit).addBlocks headers
  have hlimit := (addBlocks_fixed headers (new genesis k limit)).2.2
  rw [hD.addBlock_ok_iff, hD.fresh_minedHeader_iff, hlimit]
  exact Iff.rfl

end Mine

section Stuck

open Sample

/-- A branch of `n` blocks on genesis. -/
def branch (first n : ℕ) : List Header :=
  (List.range n).map fun i => block (first + i) [if i = 0 then 0 else first + i - 1] 0x2000ffff

/-- Two branches of eleven blocks, as after a healed partition, under a limit of ten. -/
def healed : DagStore := (new root 1 10).addBlocks (branch 1 11 ++ branch 12 11)

/-- **A stuck miner.** The two branches are stored, and the block mined on their tips is
refused. -/
theorem healed_partition_stuck :
    healed.len = 23 ∧ healed.sortedTips = [hashOf 22, hashOf 11] ∧
      (healed.addBlock (healed.minedHeader (block 23 [] 0x2000ffff))).2
        = .error (.mergesetTooLarge (hashOf 23) 10) := by
  refine ⟨?_, ?_, ?_⟩
  · decide +kernel
  · decide +kernel
  · decide +kernel

end Stuck

end Chainname.DagStore
