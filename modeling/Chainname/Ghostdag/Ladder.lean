import Chainname.Ghostdag.Growth

/-!
# Ladders

A ladder is a run of blocks that each stand on the one before. It is the simplest store that can
be as long as a bound of the source asks for: what a store is after a ladder has been added to it
is known from what it was at the ladder's foot (`stood`), by induction on the rungs.
-/

namespace Chainname.DagStore

open Sample

/-- The block over that of nonce `base + i`. -/
def rung (base i : ℕ) : Header := block (base + i + 1) [base + i] 0x2000ffff

/-- The blocks of a ladder of `m` rungs over the block of nonce `base + 1`, oldest first. -/
def rungs (base m : ℕ) : List Header := (List.range m).map fun i => rung base (i + 1)

/-- Their hashes, newest first. -/
def rungHashes (base m : ℕ) : List BlockHash :=
  ((List.range m).map fun i => hashOf (base + i + 2)).reverse

/-- The work of a rung. -/
def rungWork : ℕ := headerWork (block 0 [] 0x2000ffff)

theorem rungWork_eq : rungWork = 256 := by decide +kernel

theorem rungs_succ (base m : ℕ) : rungs base (m + 1) = rungs base m ++ [rung base (m + 1)] := by
  unfold rungs
  rw [List.range_succ, List.map_append]
  rfl

theorem rungHashes_succ (base m : ℕ) :
    rungHashes base (m + 1) = hashOf (base + m + 2) :: rungHashes base m := by
  unfold rungHashes
  rw [List.range_succ, List.map_append, List.reverse_append]
  rfl

theorem length_rungHashes (base m : ℕ) : (rungHashes base m).length = m := by
  unfold rungHashes
  rw [List.length_reverse, List.length_map, List.length_range]

theorem mem_rungHashes {base m : ℕ} {b : BlockHash} :
    b ∈ rungHashes base m ↔ ∃ i < m, b = hashOf (base + i + 2) := by
  unfold rungHashes
  simp only [List.mem_reverse, List.mem_map, List.mem_range]
  refine ⟨?_, ?_⟩
  · rintro ⟨i, hi, rfl⟩
    exact ⟨i, hi, rfl⟩
  · rintro ⟨i, hi, rfl⟩
    exact ⟨i, hi, rfl⟩

theorem rung_hash {base i : ℕ} (hsmall : base + i + 1 < 2 ^ 64) :
    (rung base i).hash = hashOf (base + i + 1) := block_hash hsmall _ _

/-- One more rung adds its work, as long as the sum does not saturate. -/
theorem saturatingAdd_rung {foot m work : ℕ} (h : foot + (m + 1) * work ≤ U256.max) :
    U256.saturatingAdd (foot + m * work) work = foot + (m + 1) * work := by
  rw [Nat.succ_mul, ← Nat.add_assoc] at h ⊢
  exact Nat.min_eq_left h

theorem addBlocks_rungs_succ (D : DagStore) (base m : ℕ) :
    D.addBlocks (rungs base (m + 1))
      = ((D.addBlocks (rungs base m)).addBlock (rung base (m + 1))).1 := by
  rw [rungs_succ]
  exact D.addBlocks_concat (rungs base m) (rung base (m + 1))

/-- A store that a ladder can stand in: its lowest block is a tip, and its rungs are new. -/
structure Foot (D : DagStore) (base m : ℕ) : Prop where
  valid : D.Valid
  tip : hashOf (base + 1) ∈ D.tips
  fresh : ∀ i < m, hashOf (base + i + 2) ∉ D.headers
  small : base + m + 1 < 2 ^ 64
  work : D.blueWork (hashOf (base + 1)) + m * rungWork ≤ U256.max

/-- A store in which a ladder stands. -/
structure Stood (D : DagStore) (base m : ℕ) (D' : DagStore) : Prop where
  valid : D'.Valid
  agree : AgreeOn (· ∈ D.headers) D D'
  mem : ∀ b, b ∈ D'.headers ↔ b ∈ D.headers ∨ b ∈ rungHashes base m
  tips : D'.tips = insert (hashOf (base + m + 1)) (D.tips.erase (hashOf (base + 1)))
  work : D'.blueWork (hashOf (base + m + 1)) = D.blueWork (hashOf (base + 1)) + m * rungWork
  height : ∀ i ≤ m, D'.topologicalHeight (hashOf (base + i + 1))
    = D.topologicalHeight (hashOf (base + 1)) + i
  chain : D'.selectedParentChain (hashOf (base + m + 1))
    = rungHashes base m ++ D.selectedParentChain (hashOf (base + 1))

theorem Foot.of_le {D : DagStore} {base m m' : ℕ} (h : Foot D base m) (hle : m' ≤ m) :
    Foot D base m' := by
  refine ⟨h.valid, h.tip, fun i hi => h.fresh i (by omega), ?_, ?_⟩
  · have := h.small
    omega
  · have hmul := Nat.mul_le_mul_right rungWork hle
    have := h.work
    omega

/-- The top of a ladder is stored, and the next rung is not. -/
theorem Stood.next {D D' : DagStore} {base m : ℕ} (hfoot : Foot D base (m + 1))
    (h : Stood D base m D') :
    hashOf (base + m + 1) ∈ D'.headers ∧ (rung base (m + 1)).hash ∉ D'.headers := by
  have hsmall := hfoot.small
  refine ⟨?_, ?_⟩
  · refine (h.valid.mem_tips.mp ?_).1
    rw [h.tips]
    exact Finset.mem_insert_self _ _
  · rw [rung_hash (by omega), h.mem, not_or]
    refine ⟨hfoot.fresh m (by omega), fun hmem => ?_⟩
    obtain ⟨i, hi, he⟩ := mem_rungHashes.mp hmem
    have := hashOf_injOn (by omega) (by omega) he
    omega

/-- **A ladder, rung by rung.** -/
theorem stood {D : DagStore} {base m : ℕ} (h : Foot D base m) :
    Stood D base m (D.addBlocks (rungs base m)) := by
  induction m with
  | zero =>
    refine ⟨h.valid, ?_, fun b => ?_, (Finset.insert_erase h.tip).symm, ?_, fun i hi => ?_, rfl⟩
    · exact h.valid.agree_withCache D.reachability
    · exact (or_iff_left List.not_mem_nil).symm
    · rw [Nat.zero_mul]
      rfl
    · obtain rfl := Nat.le_zero.mp hi
      rfl
  | succ m ih =>
    have hm := ih (h.of_le (Nat.le_succ m))
    have hsmall := h.small
    obtain ⟨htop, hnew⟩ := hm.next h
    have hparents : (rung base (m + 1)).parents = [hashOf (base + m + 1)] := rfl
    rw [addBlocks_rungs_succ]
    set D' := D.addBlocks (rungs base m)
    obtain ⟨-, hontop⟩ := hm.valid.addBlock_onTop hparents htop hnew
    obtain ⟨hchain, hheight, hwork⟩ := hm.valid.onTop_facts hparents htop hnew
    have hhash : (rung base (m + 1)).hash = hashOf (base + (m + 1) + 1) := rung_hash hsmall
    have hagree := hm.valid.addBlock_agree (rung base (m + 1))
    -- the top of the ladder so far is no tip that was there before, but the lowest block
    have hnot : hashOf (base + m + 1) ∉ D.tips.erase (hashOf (base + 1)) := by
      intro hmem
      obtain ⟨hne, htip⟩ := Finset.mem_erase.mp hmem
      cases m with
      | zero => exact hne rfl
      | succ m => exact h.fresh m (by omega) (h.valid.mem_tips.mp htip).1
    refine ⟨hm.valid.addBlock _, hm.agree.grow hagree, fun b => ?_, ?_, ?_, fun i hi => ?_, ?_⟩
    · rw [hontop.headers, Finmap.mem_insert, hm.mem, hhash, rungHashes_succ, List.mem_cons]
      exact or_left_comm
    · rw [hontop.tips, hm.tips, hhash, Finset.erase_insert hnot]
    · have hone : headerWork (rung base (m + 1)) = rungWork := headerWork_congr rfl
      rw [← hhash, hwork, hm.work, hone]
      exact saturatingAdd_rung h.work
    · obtain hlt | rfl := Nat.lt_or_eq_of_le hi
      · have hmem : hashOf (base + i + 1) ∈ D'.headers := by
          rw [hm.mem]
          cases i with
          | zero => exact Or.inl (h.valid.mem_tips.mp h.tip).1
          | succ i => exact Or.inr (mem_rungHashes.mpr ⟨i, by omega, rfl⟩)
        rw [← hagree.topologicalHeight_eq hmem]
        exact hm.height i (by omega)
      · rw [← hhash, hheight, hm.height m le_rfl, Nat.add_assoc]
    · rw [← hhash, hchain, hm.chain, hhash, rungHashes_succ]
      rfl

end Chainname.DagStore
