import Chainname.Chain.Parallel
import Chainname.Ghostdag.Layering

/-!
# The recovered rounds are the assigned rounds

The ordering rule assigns rounds from a table of last touches. The executor recovers them
from the sorted order by collecting the keys of the current round until the next
transaction touches one of them.

The greedy split cannot end a round early, as transactions of one round share no key, and
it cannot run into the next round, as a transaction of the next round conflicts with some
transaction of the current one. `partitionRounds_flatten` says this of any list of groups
with these two properties, and `recoversRounds_of_short` applies it to the groups of equal
round. Both properties are lost when a chain of conflicts is so long that the 32-bit rounds
saturate (`recoversRounds_iff`).
-/

namespace Chainname

section Greedy

variable {access : List TxAccessSet}

/-- The touched addresses are the keys of the current round. -/
def Touched (access : List TxAccessSet) (current : List ℕ) (touched : Finset Address) : Prop :=
  ∀ key, key ∈ touched ↔ ∃ i ∈ current, key ∈ keysAt access i

theorem Touched.append {current : List ℕ} {touched : Finset Address}
    (h : Touched access current touched) (index : ℕ) :
    Touched access (current ++ [index]) (touched ∪ (keysAt access index).toFinset) := by
  intro key
  rw [Finset.mem_union, h key, List.mem_toFinset]
  simp only [List.mem_append, List.mem_singleton, or_and_right, exists_or, exists_eq_left]

theorem touched_single (index : ℕ) :
    Touched access [index] (keysAt access index).toFinset := by
  intro key
  rw [List.mem_toFinset]
  simp only [List.mem_singleton, exists_eq_left]

theorem Touched.any_iff {current : List ℕ} {touched : Finset Address}
    (h : Touched access current touched) (index : ℕ) :
    (keysAt access index).any (· ∈ touched) = true ↔ ∃ i ∈ current, Conflict access i index := by
  rw [List.any_eq_true]
  refine ⟨?_, ?_⟩
  · rintro ⟨key, hkey, htouched⟩
    obtain ⟨i, hi, hki⟩ := (h key).mp (of_decide_eq_true htouched)
    exact ⟨i, hi, key, hki, hkey⟩
  · rintro ⟨i, hi, key, hki, hkey⟩
    exact ⟨key, hkey, decide_eq_true ((h key).mpr ⟨i, hi, hki⟩)⟩

/-! ### The greedy split -/

theorem partitionFrom_cons (index : ℕ) (order : List ℕ) (rounds : List (List ℕ))
    (current : List ℕ) (touched : Finset Address) :
    partitionFrom access (index :: order) rounds current touched
      = if (keysAt access index).any (· ∈ touched) && !current.isEmpty then
          partitionFrom access order (rounds ++ [current]) [index] (keysAt access index).toFinset
        else partitionFrom access order rounds (current ++ [index])
          (touched ∪ (keysAt access index).toFinset) := rfl

/-- A transaction without a conflict joins the current round. -/
theorem partitionFrom_join {index : ℕ} {current : List ℕ} {touched : Finset Address}
    (htouched : Touched access current touched)
    (hfree : ∀ i ∈ current, ¬ Conflict access i index) (order : List ℕ)
    (rounds : List (List ℕ)) :
    partitionFrom access (index :: order) rounds current touched
      = partitionFrom access order rounds (current ++ [index])
          (touched ∪ (keysAt access index).toFinset) := by
  have hany : (keysAt access index).any (· ∈ touched) = false := by
    refine Bool.eq_false_iff.mpr fun h => ?_
    obtain ⟨i, hi, hconflict⟩ := (htouched.any_iff index).mp h
    exact hfree i hi hconflict
  rw [partitionFrom_cons, hany]
  rfl

/-- A transaction in conflict with the current round opens the next one. -/
theorem partitionFrom_open {i index : ℕ} {current : List ℕ} {touched : Finset Address}
    (htouched : Touched access current touched) (hi : i ∈ current)
    (hconflict : Conflict access i index) (order : List ℕ) (rounds : List (List ℕ)) :
    partitionFrom access (index :: order) rounds current touched
      = partitionFrom access order (rounds ++ [current]) [index]
          (keysAt access index).toFinset := by
  have hany : (keysAt access index).any (· ∈ touched) = true :=
    (htouched.any_iff index).mpr ⟨i, hi, hconflict⟩
  have hne : current.isEmpty = false := by
    rw [List.isEmpty_eq_false_iff]
    exact List.ne_nil_of_mem hi
  rw [partitionFrom_cons, hany, hne]
  rfl

/-- A group without conflicts joins the current round. -/
theorem partitionFrom_group {group : List ℕ} (hgroup : group.Pairwise (¬ Conflict access · ·))
    {current : List ℕ} {touched : Finset Address} (htouched : Touched access current touched)
    (hfree : ∀ i ∈ current, ∀ j ∈ group, ¬ Conflict access i j) (order : List ℕ)
    (rounds : List (List ℕ)) :
    ∃ touched', Touched access (current ++ group) touched' ∧
      partitionFrom access (group ++ order) rounds current touched
        = partitionFrom access order rounds (current ++ group) touched' := by
  -- the group joins the open round one index at a time
  induction group generalizing current touched with
  | nil =>
    rw [List.append_nil, List.nil_append]
    exact ⟨touched, htouched, rfl⟩
  | cons index group ih =>
    rw [List.pairwise_cons] at hgroup
    have hfree' : ∀ i ∈ current ++ [index], ∀ j ∈ group, ¬ Conflict access i j := by
      intro i hi j hj
      obtain hi | hi := List.mem_append.mp hi
      · exact hfree i hi j (List.mem_cons_of_mem index hj)
      · rw [List.mem_singleton.mp hi]
        exact hgroup.1 j hj
    obtain ⟨touched', htouched', h⟩ := ih hgroup.2 (htouched.append index) hfree'
    rw [List.append_assoc, List.singleton_append] at htouched' h
    refine ⟨touched', htouched', ?_⟩
    rw [List.cons_append, partitionFrom_join htouched
      (fun i hi => hfree i hi index List.mem_cons_self), h]

/-- Every transaction of the later group conflicts with one of the earlier group. -/
def NextRound (access : List TxAccessSet) (group next : List ℕ) : Prop :=
  ∀ j ∈ next, ∃ i ∈ group, Conflict access i j

/-- From an open round on, the split finds the groups. -/
theorem partitionFrom_flatten {groups : List (List ℕ)} {current : List ℕ}
    (hnonempty : ∀ group ∈ groups, group ≠ [])
    (hapart : ∀ group ∈ groups, group.Pairwise (¬ Conflict access · ·))
    (hfollows : (current :: groups).IsChain (NextRound access)) (hcurrent : current ≠ [])
    {touched : Finset Address} (htouched : Touched access current touched)
    (rounds : List (List ℕ)) :
    partitionFrom access groups.flatten rounds current touched = rounds ++ current :: groups := by
  induction groups generalizing rounds current touched with
  | nil =>
    rw [List.flatten_nil, partitionFrom, if_neg hcurrent]
  | cons group groups ih =>
    rw [List.isChain_cons_cons] at hfollows
    obtain ⟨index, rest, rfl⟩ :=
      List.exists_cons_of_ne_nil (hnonempty group List.mem_cons_self)
    have hgroup := List.pairwise_cons.mp (hapart _ List.mem_cons_self)
    -- the first of the group opens a round, the others join it
    obtain ⟨i, hi, hconflict⟩ := hfollows.1 index List.mem_cons_self
    obtain ⟨touched', htouched', hjoin⟩ := partitionFrom_group hgroup.2 (touched_single index)
      (fun i hi j hj => List.mem_singleton.mp hi ▸ hgroup.1 j hj) groups.flatten
      (rounds ++ [current])
    rw [List.singleton_append] at htouched' hjoin
    rw [List.flatten_cons, List.cons_append, partitionFrom_open htouched hi hconflict, hjoin,
      ih (fun g hg => hnonempty g (List.mem_cons_of_mem _ hg))
      (fun g hg => hapart g (List.mem_cons_of_mem _ hg)) hfollows.2 (List.cons_ne_nil _ _)
      htouched', List.append_assoc]
    rfl

/-- **The greedy split.** Groups without conflicts of their own, each of whose transactions
conflicts with the group before, are found again in their concatenation. -/
theorem partitionRounds_flatten {groups : List (List ℕ)}
    (hnonempty : ∀ group ∈ groups, group ≠ [])
    (hapart : ∀ group ∈ groups, group.Pairwise (¬ Conflict access · ·))
    (hfollows : groups.IsChain (NextRound access)) :
    partitionRounds groups.flatten access = groups := by
  unfold partitionRounds
  cases groups with
  | nil => rfl
  | cons group groups =>
    -- before the first index nothing is touched
    have hempty : Touched access [] ∅ := fun key => by simp
    obtain ⟨touched, htouched, h⟩ := partitionFrom_group (hapart group List.mem_cons_self)
      hempty (fun i hi => absurd hi List.not_mem_nil) groups.flatten []
    rw [List.nil_append] at htouched h
    rw [List.flatten_cons, h]
    exact partitionFrom_flatten (fun g hg => hnonempty g (List.mem_cons_of_mem _ hg))
      (fun g hg => hapart g (List.mem_cons_of_mem _ hg)) hfollows
      (hnonempty group List.mem_cons_self) htouched []

end Greedy

/-! ### The groups of equal round -/

section Recovery

variable {access : List TxAccessSet}

/-- The transactions of a round, in increasing order of their indices. -/
def roundGroup (access : List TxAccessSet) (round : ℕ) : List ℕ :=
  (List.range access.length).filter fun i => roundOf access i = round

theorem mem_roundGroup {round i : ℕ} :
    i ∈ roundGroup access round ↔ i < access.length ∧ roundOf access i = round := by
  unfold roundGroup
  rw [List.mem_filter, List.mem_range, decide_eq_true_iff]

theorem nodup_roundGroup (round : ℕ) : (roundGroup access round).Nodup :=
  List.nodup_range.filter _

/-- What the split recovers from the canonical order. -/
structure RecoversRounds (access : List TxAccessSet) : Prop where
  /-- The rounds in a row are the canonical order. -/
  flatten : (partitionRounds (layerAndSort access) access).flatten = layerAndSort access
  /-- No transaction is lost and none is repeated. -/
  perm : (partitionRounds (layerAndSort access) access).flatten.Perm
    (List.range access.length)
  /-- Every recovered round has a transaction. -/
  nonempty : ∀ group ∈ partitionRounds (layerAndSort access) access, group ≠ []
  /-- The recovered rounds are the assigned ones, and there are no others. -/
  group : ∀ round, ((partitionRounds (layerAndSort access) access)[round]?).getD []
    = roundGroup access round
  /-- The transactions of a recovered round share no key. -/
  apart : ∀ group ∈ partitionRounds (layerAndSort access) access,
    group.Pairwise (¬ Conflict access · ·)

/-- The canonical order lists the rounds one after the other. -/
theorem layerAndSort_eq_flatten {bound : ℕ}
    (hbound : ∀ i < access.length, roundOf access i < bound) :
    layerAndSort access = ((List.range bound).map (roundGroup access)).flatten := by
  -- the groups put together are sorted by round, then by index
  have hpairwise : ((List.range bound).map (roundGroup access)).flatten.Pairwise
      (RoundLE access) := by
    refine List.pairwise_flatten.mpr ⟨?_, ?_⟩
    · intro group hgroup
      obtain ⟨round, -, rfl⟩ := List.mem_map.mp hgroup
      refine (List.pairwise_lt_range.filter _).imp_of_mem fun {i j} hi hj hlt => ?_
      exact Or.inr ⟨(mem_roundGroup.mp hi).2.trans (mem_roundGroup.mp hj).2.symm, hlt.le⟩
    · refine List.pairwise_map.mpr (List.pairwise_lt_range.imp fun {q q'} hlt i hi j hj => ?_)
      rw [← (mem_roundGroup.mp hi).2, ← (mem_roundGroup.mp hj).2] at hlt
      exact Or.inl hlt
  have hnodup : ((List.range bound).map (roundGroup access)).flatten.Nodup := by
    refine List.nodup_flatten.mpr ⟨?_, ?_⟩
    · intro group hgroup
      obtain ⟨round, -, rfl⟩ := List.mem_map.mp hgroup
      exact nodup_roundGroup round
    · refine List.pairwise_map.mpr (List.pairwise_lt_range.imp fun {q q'} hlt i hi hi' => ?_)
      exact hlt.ne ((mem_roundGroup.mp hi).2.symm.trans (mem_roundGroup.mp hi').2)
  -- two sorted lists of the same indices are equal
  refine List.Perm.eq_of_pairwise (fun i j _ _ => roundLE_antisymm)
    (pairwise_layerAndSort access) hpairwise ?_
  refine (List.perm_ext_iff_of_nodup (nodup_layerAndSort access) hnodup).mpr fun i => ?_
  rw [mem_layerAndSort, List.mem_flatten]
  refine ⟨?_, ?_⟩
  · intro hi
    exact ⟨roundGroup access (roundOf access i),
      List.mem_map_of_mem (List.mem_range.mpr (hbound i hi)), mem_roundGroup.mpr ⟨hi, rfl⟩⟩
  · rintro ⟨group, hgroup, hi⟩
    obtain ⟨round, -, rfl⟩ := List.mem_map.mp hgroup
    exact (mem_roundGroup.mp hi).1

/-- Two transactions of a recovered round have different assigned rounds if they conflict. -/
theorem RecoversRounds.roundOf_ne (h : RecoversRounds access) {i j : ℕ} (hij : i < j)
    (hj : j < access.length) (hconflict : Conflict access i j) :
    roundOf access i ≠ roundOf access j := by
  intro hround
  have hi : i ∈ roundGroup access (roundOf access j) :=
    mem_roundGroup.mpr ⟨hij.trans hj, hround⟩
  have hj' : j ∈ roundGroup access (roundOf access j) := mem_roundGroup.mpr ⟨hj, rfl⟩
  rw [← h.group] at hi hj'
  -- both lie in the group of one round, which has no conflict
  cases hgroup : (partitionRounds (layerAndSort access) access)[roundOf access j]? with
  | none =>
    rw [hgroup] at hi
    exact absurd hi List.not_mem_nil
  | some group =>
    rw [hgroup] at hi hj'
    have hapart := h.apart group (List.mem_of_getElem? hgroup)
    have hsymm : Std.Symm (¬ Conflict access · ·) := ⟨fun _ _ hn hc => hn hc.symm⟩
    exact hapart.forall hi hj' hij.ne hconflict

/-- Rounds that are recovered have not saturated: they grow along every chain. -/
theorem RecoversRounds.le_roundOf (h : RecoversRounds access) {j m : ℕ}
    (hchain : ConflictChain access j m) : m ≤ roundOf access j := by
  induction hchain with
  | single => exact Nat.zero_le _
  | step hi hlt hj hconflict ih =>
    have hle := min_roundOf_le hlt hj hconflict
    have hne := h.roundOf_ne hlt hj hconflict
    have hbound := roundOf_le (hlt.trans hj)
    have hbound' := roundOf_le hj
    omega

section Unsaturated

variable (hshort : ∀ j m, ConflictChain access j m → m < 2 ^ 32)

include hshort

/-- A transaction of the next round conflicts with one of this round. -/
theorem follows_roundGroup (round : ℕ) :
    NextRound access (roundGroup access round) (roundGroup access (round + 1)) := by
  intro j hj
  obtain ⟨hj, hround⟩ := mem_roundGroup.mp hj
  obtain h | ⟨i, hij, hconflict, h⟩ := roundOf_cases hj
  · exact absurd (h.symm.trans hround) (Nat.succ_ne_zero round).symm
  · refine ⟨i, mem_roundGroup.mpr ⟨hij.trans hj, ?_⟩, hconflict⟩
    have hlt := hshort _ _ (.step (conflictChain_roundOf hshort (hij.trans hj)) hij hj hconflict)
    rw [min_eq_left (Nat.le_sub_one_of_lt hlt)] at h
    exact Nat.succ.inj (h.symm.trans hround)

theorem pairwise_roundGroup (round : ℕ) :
    (roundGroup access round).Pairwise (¬ Conflict access · ·) := by
  refine (nodup_roundGroup round).imp_of_mem fun {i j} hi hj hne => ?_
  obtain ⟨hi, hroundi⟩ := mem_roundGroup.mp hi
  obtain ⟨hj, hroundj⟩ := mem_roundGroup.mp hj
  exact not_conflict_of_roundOf_eq hshort hi hj hne (hroundi.trans hroundj.symm)

/-- The rounds in use are the first ones: none is skipped. -/
theorem exists_bound : ∃ bound, ∀ round, round < bound ↔ roundGroup access round ≠ [] := by
  -- no round reaches the cap, so the last groups are empty
  have hempty : ∃ round, roundGroup access round = [] := by
    refine ⟨2 ^ 32, List.eq_nil_iff_forall_not_mem.mpr fun i hi => ?_⟩
    obtain ⟨hi, hround⟩ := mem_roundGroup.mp hi
    exact (hshort i _ (conflictChain_roundOf hshort hi)).ne hround
  classical
  refine ⟨Nat.find hempty, fun round => ⟨Nat.find_min hempty, fun hne => ?_⟩⟩
  by_contra hle
  refine hne ?_
  -- past the first empty group all are empty, each group having a conflict with the one before
  induction round, Nat.le_of_not_lt hle using Nat.le_induction with
  | base => exact Nat.find_spec hempty
  | succ round hround ih =>
    refine List.eq_nil_iff_forall_not_mem.mpr fun j hj => ?_
    obtain ⟨i, hi, -⟩ := follows_roundGroup hshort round j hj
    have hnil : roundGroup access round = [] := by
      by_contra hne
      exact hne (ih hne (Nat.not_lt.mpr hround))
    rw [hnil] at hi
    exact absurd hi List.not_mem_nil

theorem recoversRounds_of_short : RecoversRounds access := by
  obtain ⟨bound, hbound⟩ := exists_bound hshort
  have hbelow : ∀ i < access.length, roundOf access i < bound := fun i hi =>
    (hbound _).mpr (List.ne_nil_of_mem (mem_roundGroup.mpr ⟨hi, rfl⟩))
  have horder := layerAndSort_eq_flatten hbelow
  have hapart : ∀ group ∈ (List.range bound).map (roundGroup access),
      group.Pairwise (¬ Conflict access · ·) := by
    intro group hgroup
    obtain ⟨round, -, rfl⟩ := List.mem_map.mp hgroup
    exact pairwise_roundGroup hshort round
  have hnonempty : ∀ group ∈ (List.range bound).map (roundGroup access), group ≠ [] := by
    intro group hgroup
    obtain ⟨round, hround, rfl⟩ := List.mem_map.mp hgroup
    exact (hbound round).mp (List.mem_range.mp hround)
  have hfollows : ((List.range bound).map (roundGroup access)).IsChain (NextRound access) := by
    refine List.isChain_iff_getElem.mpr fun q hq => ?_
    rw [List.getElem_map, List.getElem_map, List.getElem_range, List.getElem_range]
    exact follows_roundGroup hshort q
  have hsplit : partitionRounds (layerAndSort access) access
      = (List.range bound).map (roundGroup access) := by
    rw [horder]
    exact partitionRounds_flatten hnonempty hapart hfollows
  have hflatten := flatten_partitionRounds (layerAndSort access) access
  refine ⟨hflatten, ?_, hsplit ▸ hnonempty, fun round => ?_, hsplit ▸ hapart⟩
  · rw [hflatten]
    exact layerAndSort_perm access
  rw [hsplit, List.getElem?_map]
  -- groups below the bound are those of the partition; the others are empty on both sides
  by_cases hround : round < bound
  · rw [List.getElem?_range hround]
    rfl
  · rw [List.getElem?_eq_none (by rw [List.length_range]; exact Nat.le_of_not_lt hround)]
    exact (not_not.mp fun hne => hround ((hbound round).mpr hne)).symm

end Unsaturated

/-- **The recovered rounds are the assigned rounds**, exactly when no chain of conflicts has
more than `2 ^ 32` transactions. -/
theorem recoversRounds_iff (access : List TxAccessSet) :
    RecoversRounds access ↔ ∀ j m, ConflictChain access j m → m < 2 ^ 32 := by
  refine ⟨fun h j m hchain => ?_, recoversRounds_of_short⟩
  have hbound := roundOf_le hchain.lt_length
  exact Nat.lt_of_le_pred (Nat.two_pow_pos 32) ((h.le_roundOf hchain).trans hbound)

/-! ### A saturated chain -/

theorem keysAt_replicate {n i : ℕ} (hi : i < n) (set : TxAccessSet) :
    keysAt (List.replicate n set) i = set.keys := by
  unfold keysAt
  rw [List.getElem?_replicate, if_pos hi]
  rfl

/-- Access sets with a common key form one chain. -/
theorem conflictChain_replicate {n : ℕ} {set : TxAccessSet} (hkeys : set.keys ≠ []) {j : ℕ}
    (hj : j < n) : ConflictChain (List.replicate n set) j j := by
  induction j with
  | zero => exact .single (by rw [List.length_replicate]; exact hj)
  | succ j ih =>
    obtain ⟨key, hkey⟩ := List.exists_mem_of_ne_nil _ hkeys
    refine .step (ih (Nat.lt_of_succ_lt hj)) (Nat.lt_succ_self j)
      (by rw [List.length_replicate]; exact hj) ⟨key, ?_, ?_⟩
    · rw [keysAt_replicate (Nat.lt_of_succ_lt hj)]
      exact hkey
    · rw [keysAt_replicate hj]
      exact hkey

theorem not_recoversRounds_of_lt {n : ℕ} {set : TxAccessSet} (hkeys : set.keys ≠ [])
    (hn : 2 ^ 32 < n) : ¬ RecoversRounds (List.replicate n set) := fun h =>
  have hbound := roundOf_le (by rw [List.length_replicate]; exact hn)
  have hle := (h.le_roundOf (conflictChain_replicate hkeys hn)).trans hbound
  absurd hle (by omega)

/-- On `2 ^ 32 + 1` access sets with one common key the last two rounds are both `2 ^ 32 - 1`,
but the split keeps the two transactions apart. -/
theorem saturated_rounds_not_recovered :
    ¬ RecoversRounds (List.replicate (2 ^ 32 + 1) ⟨[0]⟩) :=
  not_recoversRounds_of_lt (List.cons_ne_nil 0 []) (Nat.lt_succ_self _)

end Recovery

end Chainname
