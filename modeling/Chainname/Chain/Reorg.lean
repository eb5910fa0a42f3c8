import Chainname.Ghostdag.Growth

/-!
# Selected-parent-chain reorganisation

`computeReorg` walks from the old and the new tip back along selected parents, always
stepping the cursor whose block is deeper, until the cursors meet. What the cursors passed
are the blocks leaving and joining the chain. The walk is bounded by a guard.

At every moment the blocks passed and the chain of the cursor make up the chain of the tip
(`Passed`), so a walk whose cursors meet splits both chains over a common one. Every step
passes one block in which the chains differ (`divergence`), so the cursors meet exactly when
the chains differ in no more blocks than the guard allows.
-/

namespace Chainname

/-- The difference between two selected parent chains. -/
structure ChainReorg where
  /-- Blocks leaving the chain, tip first. -/
  removed : List BlockHash
  /-- Blocks joining the chain, oldest first. -/
  added : List BlockHash
  deriving DecidableEq

/-- Upper bound on the lockstep walk. -/
def maxReorgWalk : ℕ := 100000000

/-- Where the walk stands: both cursors, and what they have passed, tip first. -/
structure ReorgWalk where
  oldCursor : BlockHash
  newCursor : BlockHash
  removed : List BlockHash
  added : List BlockHash
  deriving DecidableEq

namespace DagStore

/-- The loop of `compute_reorg`, for at most `n` steps. -/
def reorgWalk (D : DagStore) : ℕ → ReorgWalk → ReorgWalk
  | 0, w => w
  | n + 1, w =>
    if w.oldCursor = w.newCursor then w
    else if D.topologicalHeight w.newCursor ≤ D.topologicalHeight w.oldCursor then
      let removed := w.removed ++ [w.oldCursor]
      match D.data.lookup w.oldCursor with
      | none => { w with removed := removed }
      | some data =>
        if w.oldCursor = data.selectedParent then { w with removed := removed }
        else reorgWalk D n { w with removed := removed, oldCursor := data.selectedParent }
    else
      let added := w.added ++ [w.newCursor]
      match D.data.lookup w.newCursor with
      | none => { w with added := added }
      | some data =>
        if w.newCursor = data.selectedParent then { w with added := added }
        else reorgWalk D n { w with added := added, newCursor := data.selectedParent }

/-- The walk between two tips. -/
def walkBetween (D : DagStore) (oldTip newTip : BlockHash) : ReorgWalk :=
  D.reorgWalk maxReorgWalk ⟨oldTip, newTip, [], []⟩

/-- Computes the reorganisation from `oldTip` to `newTip`. -/
def computeReorg (D : DagStore) (oldTip newTip : BlockHash) : ChainReorg :=
  if oldTip = newTip then ⟨[], []⟩
  else ⟨(D.walkBetween oldTip newTip).removed, (D.walkBetween oldTip newTip).added.reverse⟩

/-- The walk between two tips meets before the guard stops it. -/
def WalkMeets (D : DagStore) (oldTip newTip : BlockHash) : Prop :=
  (D.walkBetween oldTip newTip).oldCursor = (D.walkBetween oldTip newTip).newCursor

instance decidableWalkMeets (D : DagStore) (oldTip newTip : BlockHash) :
    Decidable (D.WalkMeets oldTip newTip) :=
  inferInstanceAs (Decidable (_ = _))

/-- The blocks of the chain of `a` that are not on the chain of `b`. -/
def onlyOnChain (D : DagStore) (a b : BlockHash) : List BlockHash :=
  (D.selectedParentChain a).filter fun x => !(D.selectedParentChain b).contains x

/-- In how many blocks two selected parent chains differ. -/
def divergence (D : DagStore) (a b : BlockHash) : ℕ :=
  (D.onlyOnChain a b).length + (D.onlyOnChain b a).length

theorem mem_onlyOnChain {D : DagStore} {a b x : BlockHash} :
    x ∈ D.onlyOnChain a b ↔ x ∈ D.selectedParentChain a ∧ x ∉ D.selectedParentChain b := by
  simp [onlyOnChain]

theorem divergence_comm (D : DagStore) (a b : BlockHash) :
    D.divergence a b = D.divergence b a :=
  Nat.add_comm _ _

/-- The blocks passed and the chains of the cursors make up the chains of the tips. -/
structure Passed (D : DagStore) (oldTip newTip : BlockHash) (w : ReorgWalk) : Prop where
  old_mem : w.oldCursor ∈ D.headers
  new_mem : w.newCursor ∈ D.headers
  old_chain : D.selectedParentChain oldTip = w.removed ++ D.selectedParentChain w.oldCursor
  new_chain : D.selectedParentChain newTip = w.added ++ D.selectedParentChain w.newCursor

section Walk

variable [HeaderHash] {D : DagStore} (hD : D.Valid)

include hD

/-- Genesis is its own selected parent. -/
theorem Valid.selected_genesis {data : GhostdagData} (h : D.data.lookup D.genesis = some data) :
    data.selectedParent = D.genesis := by
  obtain ⟨genesis, -, hg⟩ := hD.genesis_stored
  rw [hg] at h
  rw [← Option.some.inj h]
  rfl

/-- No other block is its own selected parent. -/
theorem Valid.selected_ne {b : BlockHash} {data : GhostdagData}
    (hdata : D.data.lookup b = some data) (hne : b ≠ D.genesis) : b ≠ data.selectedParent :=
  fun he => (hD.layered.height_lt (hD.selected_edge hdata hne)).ne
    (congrArg D.topologicalHeight he.symm)

/-- Of two blocks the deeper one is not on the chain of the other. -/
theorem Valid.not_mem_chain {a b : BlockHash} (hb : b ∈ D.headers) (hne : a ≠ b)
    (hle : D.topologicalHeight b ≤ D.topologicalHeight a) : a ∉ D.selectedParentChain b :=
  fun ha => ((hD.anc_of_mem_chain hb ha).height_lt hD.layered hne).not_ge hle

/-- A chain does not repeat a block. -/
theorem Valid.nodup_chain {b : BlockHash} (hb : b ∈ D.headers) :
    (D.selectedParentChain b).Nodup := by
  induction b using hD.layered.wellFounded.induction with
  | _ b ih =>
    by_cases hne : b = D.genesis
    · rw [hne, selectedParentChain_genesis]
      exact List.nodup_singleton _
    obtain ⟨data, hdata⟩ := Maps.mem_iff_exists_lookup.mp (hD.data_mem.mpr hb)
    have hedge := hD.selected_edge hdata hne
    have hselected := hD.selected_mem hdata
    rw [hD.selectedParentChain_cons hdata hne, List.nodup_cons]
    exact ⟨hD.not_mem_chain hselected (hD.selected_ne hdata hne) (hD.layered.height_lt hedge).le,
      ih _ hedge hselected⟩

/-- Of two blocks the deeper one is not genesis. -/
theorem Valid.ne_genesis_of_deeper {a b : BlockHash} (hb : b ∈ D.headers) (hne : a ≠ b)
    (hle : D.topologicalHeight b ≤ D.topologicalHeight a) : a ≠ D.genesis := by
  intro hg
  have hanc : D.Anc a b := hg ▸ hD.layered.genesis_anc hb
  exact (hanc.height_lt hD.layered hne).not_ge hle

theorem Valid.divergence_eq_zero {a b : BlockHash} (ha : a ∈ D.headers) (hb : b ∈ D.headers) :
    D.divergence a b = 0 ↔ a = b := by
  refine ⟨?_, ?_⟩
  · intro h
    -- the deeper of the two would be a block in which the chains differ
    by_contra hne
    obtain ⟨hab, hba⟩ := Nat.add_eq_zero_iff.mp h
    rw [List.length_eq_zero_iff] at hab hba
    rcases le_total (D.topologicalHeight b) (D.topologicalHeight a) with hle | hle
    · have hmem : a ∈ D.onlyOnChain a b := mem_onlyOnChain.mpr
        ⟨List.mem_of_mem_head? (hD.head?_chain ha), hD.not_mem_chain hb hne hle⟩
      rw [hab] at hmem
      exact absurd hmem List.not_mem_nil
    · have hmem : b ∈ D.onlyOnChain b a := mem_onlyOnChain.mpr
        ⟨List.mem_of_mem_head? (hD.head?_chain hb), hD.not_mem_chain ha (Ne.symm hne) hle⟩
      rw [hba] at hmem
      exact absurd hmem List.not_mem_nil
  · rintro rfl
    have hnil : D.onlyOnChain a a = [] :=
      List.eq_nil_iff_forall_not_mem.mpr fun x hx =>
        (mem_onlyOnChain.mp hx).2 (mem_onlyOnChain.mp hx).1
    rw [divergence, hnil]
    rfl

/-- The deeper of two blocks is one in which their chains differ, and its selected parent has
the others. -/
theorem Valid.onlyOnChain_step {a b : BlockHash} {data : GhostdagData} (hb : b ∈ D.headers)
    (hne : a ≠ b) (hle : D.topologicalHeight b ≤ D.topologicalHeight a)
    (hdata : D.data.lookup a = some data) :
    D.onlyOnChain a b = a :: D.onlyOnChain data.selectedParent b ∧
      D.onlyOnChain b a = D.onlyOnChain b data.selectedParent := by
  have hnot := hD.not_mem_chain hb hne hle
  have hcons := hD.selectedParentChain_cons hdata (hD.ne_genesis_of_deeper hb hne hle)
  refine ⟨?_, ?_⟩
  · -- the higher block is on its own chain only; everything behind it is shared by both sides
    unfold onlyOnChain
    rw [hcons, List.filter_cons_of_pos (by simpa using hnot)]
  · refine List.filter_congr fun x hx => ?_
    have hxa : x ≠ a := fun he => hnot (he ▸ hx)
    rw [hcons]
    simp [hxa]

/-- A step of the deeper cursor passes one block in which the chains differ. -/
theorem Valid.divergence_step {a b : BlockHash} {data : GhostdagData} (hb : b ∈ D.headers)
    (hne : a ≠ b) (hle : D.topologicalHeight b ≤ D.topologicalHeight a)
    (hdata : D.data.lookup a = some data) :
    D.divergence a b = D.divergence data.selectedParent b + 1 := by
  obtain ⟨ha', hb'⟩ := hD.onlyOnChain_step hb hne hle hdata
  rw [divergence, divergence, hb', ha', List.length_cons]
  omega

/-- **What a walk has passed.** After `n` steps the blocks passed and those still ahead make up
the difference of the chains, `n` fewer are ahead, and no removed block lies below the new
cursor. -/
theorem Valid.reorgWalk_partial : ∀ (n : ℕ) (w : ReorgWalk), w.oldCursor ∈ D.headers →
    w.newCursor ∈ D.headers →
    (∀ x ∈ w.removed, D.topologicalHeight w.newCursor ≤ D.topologicalHeight x) →
    (D.reorgWalk n w).removed
        ++ D.onlyOnChain (D.reorgWalk n w).oldCursor (D.reorgWalk n w).newCursor
      = w.removed ++ D.onlyOnChain w.oldCursor w.newCursor ∧
    (D.reorgWalk n w).added
        ++ D.onlyOnChain (D.reorgWalk n w).newCursor (D.reorgWalk n w).oldCursor
      = w.added ++ D.onlyOnChain w.newCursor w.oldCursor ∧
    D.divergence (D.reorgWalk n w).oldCursor (D.reorgWalk n w).newCursor
      = D.divergence w.oldCursor w.newCursor - n ∧
    (D.reorgWalk n w).oldCursor ∈ D.headers ∧ (D.reorgWalk n w).newCursor ∈ D.headers ∧
    ∀ x ∈ (D.reorgWalk n w).removed,
      D.topologicalHeight (D.reorgWalk n w).newCursor ≤ D.topologicalHeight x := by
  -- induction on the steps left; removed blocks stay above the new cursor
  intro n
  induction n with
  | zero => exact fun w ho hn hlow => ⟨rfl, rfl, rfl, ho, hn, hlow⟩
  | succ n ih =>
    intro w ho hn hlow
    unfold reorgWalk
    by_cases heq : w.oldCursor = w.newCursor
    · rw [if_pos heq]
      refine ⟨rfl, rfl, ?_, ho, hn, hlow⟩
      rw [(hD.divergence_eq_zero ho hn).mpr heq, Nat.zero_sub]
    rw [if_neg heq]
    by_cases hle : D.topologicalHeight w.newCursor ≤ D.topologicalHeight w.oldCursor
    · -- the old cursor is not lower, so it steps back and its block is removed
      rw [if_pos hle]
      obtain ⟨data, hdata⟩ := Maps.mem_iff_exists_lookup.mp (hD.data_mem.mpr ho)
      have hself := hD.selected_ne hdata (hD.ne_genesis_of_deeper hn heq hle)
      obtain ⟨hold, hnew⟩ := hD.onlyOnChain_step hn heq hle hdata
      have hlow' : ∀ x ∈ w.removed ++ [w.oldCursor],
          D.topologicalHeight w.newCursor ≤ D.topologicalHeight x := by
        intro x hx
        obtain hx | hx := List.mem_append.mp hx
        · exact hlow x hx
        · rw [List.mem_singleton.mp hx]
          exact hle
      obtain ⟨hremoved, hadded, hleft, hlast⟩ :=
        ih ⟨data.selectedParent, w.newCursor, w.removed ++ [w.oldCursor], w.added⟩
          (hD.selected_mem hdata) hn hlow'
      rw [hdata, hD.divergence_step hn heq hle hdata, hold, hnew, Nat.add_sub_add_right]
      dsimp only
      rw [if_neg hself]
      exact ⟨hremoved.trans (List.append_cons _ _ _).symm, hadded, hleft, hlast⟩
    · -- the new cursor is higher: its block is added, and the removed ones stay above it
      rw [if_neg hle]
      have hle' := (not_le.mp hle).le
      obtain ⟨data, hdata⟩ := Maps.mem_iff_exists_lookup.mp (hD.data_mem.mpr hn)
      have hne := hD.ne_genesis_of_deeper ho (Ne.symm heq) hle'
      have hself := hD.selected_ne hdata hne
      obtain ⟨hnew, hold⟩ := hD.onlyOnChain_step ho (Ne.symm heq) hle' hdata
      have hlow' : ∀ x ∈ w.removed,
          D.topologicalHeight data.selectedParent ≤ D.topologicalHeight x := fun x hx =>
        (hD.layered.height_lt (hD.selected_edge hdata hne)).le.trans (hlow x hx)
      obtain ⟨hremoved, hadded, hleft, hlast⟩ :=
        ih ⟨w.oldCursor, data.selectedParent, w.removed, w.added ++ [w.newCursor]⟩ ho
          (hD.selected_mem hdata) hlow'
      rw [hdata, divergence_comm D w.oldCursor, hD.divergence_step ho (Ne.symm heq) hle' hdata,
        hold, hnew, Nat.add_sub_add_right, divergence_comm D data.selectedParent]
      dsimp only
      rw [if_neg hself]
      exact ⟨hremoved, hadded.trans (List.append_cons _ _ _).symm, hleft, hlast⟩

/-- **The walk between two blocks meets exactly when their chains differ in at most as many
blocks as the guard allows.** -/
theorem Valid.walkMeets_iff {oldTip newTip : BlockHash} (ho : oldTip ∈ D.headers)
    (hn : newTip ∈ D.headers) :
    D.WalkMeets oldTip newTip ↔ D.divergence oldTip newTip ≤ maxReorgWalk := by
  obtain ⟨-, -, hleft, hold, hnew, -⟩ := hD.reorgWalk_partial maxReorgWalk
    ⟨oldTip, newTip, [], []⟩ ho hn fun _ h => absurd h List.not_mem_nil
  unfold WalkMeets walkBetween
  rw [← hD.divergence_eq_zero hold hnew, hleft]
  exact Nat.sub_eq_zero_iff_le

/-- A walk out of genesis that does not meet has passed the newest blocks of the other
chain. -/
theorem Valid.reorgWalk_from_genesis : ∀ (n : ℕ) (w : ReorgWalk), w.oldCursor = D.genesis →
    w.newCursor ∈ D.headers → n < (D.selectedParentChain w.newCursor).length →
    (D.reorgWalk n w).removed = w.removed ∧
      (D.reorgWalk n w).added = w.added ++ (D.selectedParentChain w.newCursor).take n := by
  intro n
  induction n with
  | zero => exact fun w _ _ _ => ⟨rfl, (List.append_nil _).symm⟩
  | succ n ih =>
    intro w ho hn hlen
    have hne : w.newCursor ≠ D.genesis := by
      intro hg
      rw [hg, selectedParentChain_genesis] at hlen
      exact absurd hlen (by simp)
    -- the old cursor is at the bottom, so only the new one moves
    have hheight : D.topologicalHeight w.oldCursor < D.topologicalHeight w.newCursor := by
      rw [ho]
      exact (hD.layered.genesis_anc hn).height_lt hD.layered (Ne.symm hne)
    obtain ⟨data, hdata⟩ := Maps.mem_iff_exists_lookup.mp (hD.data_mem.mpr hn)
    have hcons := hD.selectedParentChain_cons hdata hne
    rw [hcons, List.length_cons] at hlen
    unfold reorgWalk
    rw [if_neg (ho.trans_ne (Ne.symm hne)), if_neg (not_le.mpr hheight), hdata]
    dsimp only
    rw [if_neg (hD.selected_ne hdata hne)]
    obtain ⟨hremoved, hadded⟩ := ih
      { w with added := w.added ++ [w.newCursor], newCursor := data.selectedParent } ho
      (hD.selected_mem hdata) (by dsimp only; omega)
    refine ⟨hremoved, ?_⟩
    rw [hadded, hcons, List.take_succ_cons, List.append_assoc]
    rfl

/-- **The walk keeps the chains together**, as long as the cursors can go on. -/
theorem Valid.reorgWalk_passed {oldTip newTip : BlockHash} :
    ∀ (n : ℕ) (w : ReorgWalk), D.Passed oldTip newTip w →
      (D.reorgWalk n w).oldCursor = (D.reorgWalk n w).newCursor →
      D.Passed oldTip newTip (D.reorgWalk n w) := by
  intro n
  -- the walk keeps what it has passed, as long as it ends where the cursors meet
  induction n with
  | zero => exact fun w hw _ => hw
  | succ n ih =>
    intro w hw hmeet
    unfold reorgWalk at hmeet ⊢
    by_cases heq : w.oldCursor = w.newCursor
    · rw [if_pos heq]
      exact hw
    rw [if_neg heq] at hmeet ⊢
    by_cases hle : D.topologicalHeight w.newCursor ≤ D.topologicalHeight w.oldCursor
    · -- the old cursor steps back
      rw [if_pos hle] at hmeet ⊢
      -- had the walk stopped here, the cursors would never meet
      cases hdata : D.data.lookup w.oldCursor with
      | none =>
        rw [hdata] at hmeet
        exact absurd hmeet heq
      | some data =>
        rw [hdata] at hmeet
        dsimp only at hmeet ⊢
        by_cases hself : w.oldCursor = data.selectedParent
        · rw [if_pos hself] at hmeet
          exact absurd hmeet heq
        rw [if_neg hself] at hmeet ⊢
        have hne : w.oldCursor ≠ D.genesis := by
          intro hg
          rw [hg] at hdata hself
          exact hself (hD.selected_genesis hdata).symm
        refine ih _ ⟨hD.selected_mem hdata, hw.new_mem, ?_, hw.new_chain⟩ hmeet
        rw [hw.old_chain, hD.selectedParentChain_cons hdata hne, List.append_assoc]
        rfl
    · -- the new cursor steps back
      rw [if_neg hle] at hmeet ⊢
      -- the same on the other side
      cases hdata : D.data.lookup w.newCursor with
      | none =>
        rw [hdata] at hmeet
        exact absurd hmeet heq
      | some data =>
        rw [hdata] at hmeet
        dsimp only at hmeet ⊢
        by_cases hself : w.newCursor = data.selectedParent
        · rw [if_pos hself] at hmeet
          exact absurd hmeet heq
        rw [if_neg hself] at hmeet ⊢
        have hne : w.newCursor ≠ D.genesis := by
          intro hg
          rw [hg] at hdata hself
          exact hself (hD.selected_genesis hdata).symm
        refine ih _ ⟨hw.old_mem, hD.selected_mem hdata, hw.old_chain, ?_⟩ hmeet
        rw [hw.new_chain, hD.selectedParentChain_cons hdata hne, List.append_assoc]
        rfl

/-- **What a reorganisation is.** The old chain is the removed blocks on a common chain, the
new chain is the added blocks, newest first, on the same chain. -/
theorem Valid.computeReorg_spec {oldTip newTip : BlockHash} (ho : oldTip ∈ D.headers)
    (hn : newTip ∈ D.headers) (hmeets : D.WalkMeets oldTip newTip) :
    ∃ fork ∈ D.headers,
      D.selectedParentChain oldTip
        = (D.computeReorg oldTip newTip).removed ++ D.selectedParentChain fork ∧
      D.selectedParentChain newTip
        = (D.computeReorg oldTip newTip).added.reverse ++ D.selectedParentChain fork := by
  -- equal tips: nothing to walk
  by_cases heq : oldTip = newTip
  · refine ⟨newTip, hn, ?_⟩
    unfold computeReorg
    rw [if_pos heq, heq]
    exact ⟨rfl, rfl⟩
  · have hpassed : D.Passed oldTip newTip (D.walkBetween oldTip newTip) :=
      hD.reorgWalk_passed maxReorgWalk ⟨oldTip, newTip, [], []⟩ ⟨ho, hn, rfl, rfl⟩ hmeets
    refine ⟨(D.walkBetween oldTip newTip).oldCursor, hpassed.old_mem, ?_⟩
    unfold computeReorg
    rw [if_neg heq, List.reverse_reverse]
    refine ⟨hpassed.old_chain, ?_⟩
    rw [show (D.walkBetween oldTip newTip).oldCursor = _ from hmeets]
    exact hpassed.new_chain

/-- **A walk to the virtual selected parent that meets** finds what lies above the fork on both
sides, and its last block is the virtual selected parent, unless that is the old tip: the virtual
selected parent lies behind no other block. -/
theorem Valid.reorgToSelected {tip : BlockHash} (htip : tip ∈ D.headers)
    (hreach : D.divergence tip D.virtualSelectedParent ≤ maxReorgWalk) :
    ∃ fork ∈ D.headers,
      D.selectedParentChain tip = (D.computeReorg tip D.virtualSelectedParent).removed
        ++ D.selectedParentChain fork ∧
      D.selectedParentChain D.virtualSelectedParent
        = (D.computeReorg tip D.virtualSelectedParent).added.reverse
          ++ D.selectedParentChain fork ∧
      (tip ≠ D.virtualSelectedParent →
        (D.computeReorg tip D.virtualSelectedParent).added.getLast?
          = some D.virtualSelectedParent) := by
  have hvsp := (hD.mem_tips.mp hD.virtualSelectedParent_mem).1
  obtain ⟨fork, hfork, hold, hnew⟩ :=
    hD.computeReorg_spec htip hvsp ((hD.walkMeets_iff htip hvsp).mpr hreach)
  refine ⟨fork, hfork, hold, hnew, fun hne => ?_⟩
  have hhead := hD.head?_chain hvsp
  rw [hnew, List.head?_append, List.head?_reverse] at hhead
  cases hlast : (D.computeReorg tip D.virtualSelectedParent).added.getLast? with
  | some last =>
    rw [hlast] at hhead
    exact hhead
  | none =>
    -- nothing is added, so the fork is the virtual selected parent
    rw [hlast, Option.none_or, hD.head?_chain hfork] at hhead
    rw [Option.some.inj hhead] at hold
    refine absurd (hD.eq_of_virtualSelectedParent_anc (hD.anc_of_mem_chain htip ?_)) hne
    rw [hold]
    exact List.mem_append_right _ (List.mem_of_mem_head? (hD.head?_chain hvsp))

/-- The reorganisation between two tips, when the guard allows it: the blocks in which their
chains differ. -/
theorem Valid.computeReorg_eq {oldTip newTip : BlockHash} (ho : oldTip ∈ D.headers)
    (hn : newTip ∈ D.headers) (hreach : D.divergence oldTip newTip ≤ maxReorgWalk) :
    D.computeReorg oldTip newTip
      = ⟨D.onlyOnChain oldTip newTip, (D.onlyOnChain newTip oldTip).reverse⟩ := by
  -- no divergence means both sides are empty
  by_cases heq : oldTip = newTip
  · have hzero := (hD.divergence_eq_zero ho hn).mpr heq
    obtain ⟨hold, hnew⟩ := Nat.add_eq_zero_iff.mp hzero
    rw [List.length_eq_zero_iff.mp hold, List.length_eq_zero_iff.mp hnew]
    unfold computeReorg
    rw [if_pos heq]
    rfl
  · obtain ⟨hold, hnew, hleft, -⟩ := hD.reorgWalk_partial maxReorgWalk
      ⟨oldTip, newTip, [], []⟩ ho hn fun _ h => absurd h List.not_mem_nil
    -- within the bound the walk ends with nothing left on either side
    rw [Nat.sub_eq_zero_of_le hreach] at hleft
    obtain ⟨hold', hnew'⟩ := Nat.add_eq_zero_iff.mp hleft
    rw [List.length_eq_zero_iff.mp hold', List.append_nil, List.nil_append] at hold
    rw [List.length_eq_zero_iff.mp hnew', List.append_nil, List.nil_append] at hnew
    unfold computeReorg walkBetween
    rw [if_neg heq, hold, hnew]

omit [HeaderHash] hD in
/-- Two chains over a common one differ in what lies above it. -/
theorem onlyOnChain_eq {a b : BlockHash} {top top' common : List BlockHash}
    (ha : D.selectedParentChain a = top ++ common) (hb : D.selectedParentChain b = top' ++ common)
    (htop : ∀ x ∈ top, x ∉ top' ∧ x ∉ common) : D.onlyOnChain a b = top := by
  unfold onlyOnChain
  rw [ha, hb, List.filter_append]
  have hleft : top.filter (fun x => !(top' ++ common).contains x) = top :=
    List.filter_eq_self.mpr fun x hx => by
      obtain ⟨h, h'⟩ := htop x hx
      simp [h, h']
  have hright : common.filter (fun x => !(top' ++ common).contains x) = [] :=
    List.filter_eq_nil_iff.mpr fun x hx => by simp [hx]
  rw [hleft, hright, List.append_nil]

/-- The chain of a block on top of another differs from that of the other in the block alone. -/
theorem Valid.onlyOnChain_child {p b : BlockHash} (hb : b ∈ D.headers)
    (hchain : D.selectedParentChain b = b :: D.selectedParentChain p) :
    D.onlyOnChain p b = [] ∧ D.onlyOnChain b p = [b] := by
  have hnodup := hD.nodup_chain hb
  rw [hchain, List.nodup_cons] at hnodup
  have hp' : D.selectedParentChain p = [] ++ D.selectedParentChain p := rfl
  have hb' : D.selectedParentChain b = [b] ++ D.selectedParentChain p := hchain
  refine ⟨onlyOnChain_eq hp' hb' fun x hx => absurd hx List.not_mem_nil,
    onlyOnChain_eq hb' hp' fun x hx => ?_⟩
  rw [List.mem_singleton.mp hx]
  exact ⟨List.not_mem_nil, hnodup.1⟩

theorem Valid.divergence_child {p b : BlockHash} (hb : b ∈ D.headers)
    (hchain : D.selectedParentChain b = b :: D.selectedParentChain p) : D.divergence p b = 1 := by
  obtain ⟨hold, hnew⟩ := hD.onlyOnChain_child hb hchain
  unfold divergence
  rw [hold, hnew]
  rfl

/-- A block on top of the old tip joins, and no block leaves. -/
theorem Valid.computeReorg_child {p b : BlockHash} (hp : p ∈ D.headers) (hb : b ∈ D.headers)
    (hchain : D.selectedParentChain b = b :: D.selectedParentChain p) :
    D.computeReorg p b = ⟨[], [b]⟩ := by
  obtain ⟨hold, hnew⟩ := hD.onlyOnChain_child hb hchain
  have hreach : D.divergence p b ≤ maxReorgWalk := by
    rw [hD.divergence_child hb hchain]
    exact Nat.le_of_ble_eq_true rfl
  rw [hD.computeReorg_eq hp hb hreach, hold, hnew]
  rfl

/-- **One step short.** When the chains differ in one block more than the guard allows, and the
oldest block of the old one lies deeper than all of the new ones, it is not removed. -/
theorem Valid.computeReorg_one_short {a b x : BlockHash} {old new common : List BlockHash}
    (ha : a ∈ D.headers) (hb : b ∈ D.headers)
    (hold : D.selectedParentChain a = (old ++ [x]) ++ common)
    (hnew : D.selectedParentChain b = new ++ common) (hdisjoint : ∀ z ∈ old ++ [x], z ∉ new)
    (hlen : (old ++ [x]).length + new.length = maxReorgWalk + 1)
    (hheight : ∀ y ∈ new, D.topologicalHeight x < D.topologicalHeight y) :
    D.computeReorg a b = ⟨old, new.reverse⟩ := by
  have hcommon : ∀ {l : List BlockHash} {c : BlockHash}, c ∈ D.headers →
      D.selectedParentChain c = l ++ common → ∀ z ∈ l, z ∉ common := by
    intro l c hc hchain z hz hz'
    have hnodup := hD.nodup_chain hc
    rw [hchain] at hnodup
    exact List.disjoint_of_nodup_append hnodup hz hz'
  have honlyOld : D.onlyOnChain a b = old ++ [x] :=
    onlyOnChain_eq hold hnew fun z hz => ⟨hdisjoint z hz, hcommon ha hold z hz⟩
  have honlyNew : D.onlyOnChain b a = new :=
    onlyOnChain_eq hnew hold fun z hz => ⟨fun h => hdisjoint z h hz, hcommon hb hnew z hz⟩
  have hne : a ≠ b := by
    rintro rfl
    have hzero := (hD.divergence_eq_zero ha ha).mpr rfl
    unfold divergence at hzero
    rw [honlyOld, List.length_append, List.length_singleton] at hzero
    omega
  obtain ⟨hremoved, hadded, hleft, -, hmem, hlow⟩ := hD.reorgWalk_partial maxReorgWalk
    ⟨a, b, [], []⟩ ha hb fun _ h => absurd h List.not_mem_nil
  change _ = [] ++ D.onlyOnChain a b at hremoved
  change _ = [] ++ D.onlyOnChain b a at hadded
  change _ = D.divergence a b - maxReorgWalk at hleft
  have hone : D.divergence a b - maxReorgWalk = 1 := by
    unfold divergence
    rw [honlyOld, honlyNew, hlen, Nat.add_sub_cancel_left]
  rw [hone] at hleft
  rw [honlyOld, List.nil_append] at hremoved
  rw [honlyNew, List.nil_append] at hadded
  unfold computeReorg walkBetween
  rw [if_neg hne]
  generalize D.reorgWalk maxReorgWalk ⟨a, b, [], []⟩ = w at hremoved hadded hleft hmem hlow
  unfold divergence at hleft
  cases hlast : D.onlyOnChain w.oldCursor w.newCursor with
  | cons z rest =>
    -- the block ahead is on the old chain, its oldest
    rw [hlast, List.length_cons] at hleft
    obtain rfl : rest = [] := List.length_eq_zero_iff.mp (by omega)
    have hnone : D.onlyOnChain w.newCursor w.oldCursor = [] :=
      List.length_eq_zero_iff.mp (by omega)
    rw [hlast] at hremoved
    rw [hnone, List.append_nil] at hadded
    obtain ⟨hremoved, -⟩ := List.append_inj' hremoved rfl
    rw [hremoved, hadded]
  | nil =>
    -- it is on the new one: but then the oldest of the old chain was removed too early
    rw [hlast, List.length_nil, Nat.zero_add] at hleft
    obtain ⟨y, hy⟩ := List.length_eq_one_iff.mp hleft
    rw [hlast, List.append_nil] at hremoved
    rw [hy] at hadded
    have hynew : y ∈ new := by
      rw [← hadded]
      exact List.mem_append_right _ List.mem_cons_self
    have hychain : y ∈ D.selectedParentChain w.newCursor :=
      (mem_onlyOnChain.mp (hy ▸ List.mem_cons_self)).1
    have hle := (hD.anc_of_mem_chain hmem hychain).height_le hD.layered
    have hxle := hlow x (by rw [hremoved]; exact List.mem_append_right _ List.mem_cons_self)
    have hlt := hheight y hynew
    omega

/-- What lies below a block of a chain is the chain of that block. -/
theorem Valid.chain_of_split {b x : BlockHash} {above below : List BlockHash} (hb : b ∈ D.headers)
    (hsplit : D.selectedParentChain b = above ++ x :: below) :
    x ∈ D.headers ∧ D.selectedParentChain x = x :: below := by
  -- down the part above `x`
  induction above generalizing b with
  | nil =>
    have hhead := hD.head?_chain hb
    rw [hsplit] at hhead
    obtain rfl := Option.some.inj hhead
    exact ⟨hb, hsplit⟩
  | cons y above ih =>
    by_cases hne : b = D.genesis
    · rw [hne, selectedParentChain_genesis] at hsplit
      exact absurd (List.cons.inj hsplit).2.symm (List.append_ne_nil_of_right_ne_nil _ (List.cons_ne_nil _ _))
    obtain ⟨data, hdata⟩ := Maps.mem_iff_exists_lookup.mp (hD.data_mem.mpr hb)
    rw [hD.selectedParentChain_cons hdata hne] at hsplit
    exact ih (hD.selected_mem hdata) (List.cons.inj hsplit).2

/-- Next on a chain after a block is its selected parent. -/
theorem Valid.selected_of_split {b x y : BlockHash} {above below : List BlockHash}
    (hb : b ∈ D.headers) (hsplit : D.selectedParentChain b = above ++ x :: y :: below) :
    (D.data.lookup x).map GhostdagData.selectedParent = some y := by
  obtain ⟨hx, hchain⟩ := hD.chain_of_split hb hsplit
  obtain ⟨data, hdata⟩ := Maps.mem_iff_exists_lookup.mp (hD.data_mem.mpr hx)
  by_cases hne : x = D.genesis
  · rw [hne, selectedParentChain_genesis] at hchain
    exact absurd (List.cons.inj hchain).2.symm (List.cons_ne_nil _ _)
  rw [hD.selectedParentChain_cons hdata hne] at hchain
  have hhead := hD.head?_chain (hD.selected_mem hdata)
  rw [(List.cons.inj hchain).2] at hhead
  rw [hdata, Option.map_some, Option.some.inj hhead]

/-- Chains differ in no more blocks than there are. -/
theorem Valid.divergence_le_len {a b : BlockHash} (ha : a ∈ D.headers) (hb : b ∈ D.headers) :
    D.divergence a b ≤ D.len := by
  -- the two sides are disjoint sets of stored blocks
  have hnodup : (D.onlyOnChain a b ++ D.onlyOnChain b a).Nodup := by
    refine List.nodup_append.mpr ⟨(hD.nodup_chain ha).filter _, (hD.nodup_chain hb).filter _, ?_⟩
    rintro x hx _ hx' rfl
    exact (mem_onlyOnChain.mp hx).2 (mem_onlyOnChain.mp hx').1
  have hstored : ∀ {c d x : BlockHash}, c ∈ D.headers → x ∈ D.onlyOnChain c d → x ∈ D.headers :=
    fun hc hx => (hD.anc_of_mem_chain hc (mem_onlyOnChain.mp hx).1).mem hD.layered.toRooted hc
  have hsubset : (D.onlyOnChain a b ++ D.onlyOnChain b a).toFinset ⊆ D.headers.keys := by
    intro x hx
    rw [List.mem_toFinset, List.mem_append] at hx
    exact Finmap.mem_keys.mpr (hx.elim (hstored ha) (hstored hb))
  have hcard := Finset.card_le_card hsubset
  rw [List.toFinset_card_of_nodup hnodup, List.length_append] at hcard
  exact hcard

omit [HeaderHash] hD in
/-- The reorganisation from one tip to another is the least difference of their chains. -/
structure LeastDifference (D : DagStore) (old new : BlockHash) : Prop where
  /-- What is removed is what is on the old chain only, tip first. -/
  removed : (D.computeReorg old new).removed = D.onlyOnChain old new
  /-- What is added is what is on the new chain only, oldest first. -/
  added : (D.computeReorg old new).added = (D.onlyOnChain new old).reverse
  /-- Both chains go on from a fork, which is in neither list. -/
  fork : ∃ fork common, D.selectedParentChain old
      = (D.computeReorg old new).removed ++ fork :: common ∧
    D.selectedParentChain new = (D.computeReorg old new).added.reverse ++ fork :: common ∧
    fork ∉ (D.computeReorg old new).removed ∧ fork ∉ (D.computeReorg old new).added
  genesis : D.genesis ∉ (D.computeReorg old new).removed ∧ D.genesis ∉ (D.computeReorg old new).added
  /-- The oldest removed block and the first added one have the same selected parent. -/
  joint : ∀ last ∈ (D.computeReorg old new).removed.getLast?,
    ∀ first ∈ (D.computeReorg old new).added.head?, ∃ p,
      (D.data.lookup last).map GhostdagData.selectedParent = some p ∧
      (D.data.lookup first).map GhostdagData.selectedParent = some p
  /-- The other way round it is the mirror image. -/
  mirror : D.computeReorg new old
    = ⟨(D.computeReorg old new).added.reverse, (D.computeReorg old new).removed.reverse⟩

/-- **The walk computes the least difference** of two chains that differ in no more blocks than
the guard allows. -/
theorem Valid.leastDifference {old new : BlockHash} (ho : old ∈ D.headers) (hn : new ∈ D.headers)
    (hreach : D.divergence old new ≤ maxReorgWalk) : D.LeastDifference old new := by
  have hreorg := hD.computeReorg_eq ho hn hreach
  have hmirror := hD.computeReorg_eq hn ho (D.divergence_comm old new ▸ hreach)
  obtain ⟨fork, hfork, hold, hnew⟩ :=
    hD.computeReorg_spec ho hn ((hD.walkMeets_iff ho hn).mpr hreach)
  -- the chain of the fork is the common part
  have hchain : D.selectedParentChain fork = fork :: (D.selectedParentChain fork).tail :=
    (List.head?_eq_some_iff.mp (hD.head?_chain hfork)).elim fun rest hrest => by
      rw [hrest]
      rfl
  rw [hchain] at hold hnew
  have hforkOld : fork ∈ D.selectedParentChain old := by
    rw [hold]
    exact List.mem_append_right _ List.mem_cons_self
  have hforkNew : fork ∈ D.selectedParentChain new := by
    rw [hnew]
    exact List.mem_append_right _ List.mem_cons_self
  have hgenesis : ∀ {b}, b ∈ D.headers → D.genesis ∈ D.selectedParentChain b := fun hb => by
    rw [hD.chain_eq_dropLast hb]
    exact List.mem_append_right _ (List.mem_singleton_self _)
  have hnotRemoved : ∀ x ∈ D.selectedParentChain new, x ∉ (D.computeReorg old new).removed := by
    intro x hx hx'
    rw [hreorg] at hx'
    exact (mem_onlyOnChain.mp hx').2 hx
  have hnotAdded : ∀ x ∈ D.selectedParentChain old, x ∉ (D.computeReorg old new).added := by
    intro x hx hx'
    rw [hreorg] at hx'
    exact (mem_onlyOnChain.mp (List.mem_reverse.mp hx')).2 hx
  refine ⟨congrArg ChainReorg.removed hreorg, congrArg ChainReorg.added hreorg,
    ⟨fork, _, hold, hnew, hnotRemoved fork hforkNew, hnotAdded fork hforkOld⟩,
    ⟨hnotRemoved _ (hgenesis hn), hnotAdded _ (hgenesis ho)⟩, ?_, ?_⟩
  · intro last hlast first hfirst
    refine ⟨fork, ?_, ?_⟩
    · obtain ⟨above, habove⟩ := List.getLast?_eq_some_iff.mp hlast
      rw [habove, List.append_assoc] at hold
      exact hD.selected_of_split ho hold
    · obtain ⟨above, habove⟩ := List.head?_eq_some_iff.mp hfirst
      rw [habove, List.reverse_cons, List.append_assoc] at hnew
      exact hD.selected_of_split hn hnew
  · rw [hmirror, hreorg, List.reverse_reverse]

omit hD in
/-- **`compute_reorg` is the least difference of two chains** in every store of at most as many
blocks as the guard of the walk. -/
theorem leastDifference_addBlocks (genesis : Header) (k : UInt16) (limit : ℕ)
    (headers : List Header) (hlen : ((new genesis k limit).addBlocks headers).len ≤ 10 ^ 8)
    {old new' : BlockHash} (ho : old ∈ ((new genesis k limit).addBlocks headers).headers)
    (hn : new' ∈ ((new genesis k limit).addBlocks headers).headers) :
    ((new genesis k limit).addBlocks headers).LeastDifference old new' := by
  have hvalid := (new_valid genesis k limit).addBlocks headers
  exact hvalid.leastDifference ho hn ((hvalid.divergence_le_len ho hn).trans hlen)

end Walk

open Sample in
/-- Two branches of different length. -/
theorem leastDifference_forked :
    ((new root 2 10).addBlocks [block 1 [0] 0x2000ffff, block 2 [1] 0x2000ffff,
      block 3 [0] 0x2000ffff]).LeastDifference (hashOf 2) (hashOf 3) :=
  leastDifference_addBlocks root 2 10 [block 1 [0] 0x2000ffff, block 2 [1] 0x2000ffff,
    block 3 [0] 0x2000ffff] (by decide +kernel) (by decide +kernel) (by decide +kernel)

end DagStore

end Chainname
