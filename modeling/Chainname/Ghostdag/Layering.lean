import Chainname.Ghostdag.Ordering
import Chainname.Library.Reorder
import Mathlib.Order.Bounds.Basic

/-!
# The layering reorder

Two transactions conflict when they share an access key. A chain of conflicts leads from
transaction to later transaction, and the round of a transaction is the length of the
longest chain that ends at it (`isGreatest_roundOf`).

The one pass of `rounds` remembers, per address, the round of the last transaction that
touched it. That is enough: an earlier toucher conflicts with the last one, so its round
is lower (`min_roundOf_le`), and the round of a transaction is one more than that of some
last toucher (`roundOf_cases`). The rounds are 32-bit numbers and the addition saturates.
On fewer than `2 ^ 32` transactions no chain is long enough for it.

`layering_sound` puts this together with the reordering rule of `Reorder`: only
transactions without a common key change places, so every semantics that reads and writes
its access keys only ends in the same state with the same results.
-/

namespace Chainname

section Layering

variable {T : Type} [AccessSet T] (transactions : List T)

/-- The access keys of the transaction at an index. -/
def keysAt (i : ℕ) : List Address := (transactions[i]?).elim [] AccessSet.accessKeys

/-- The round of the transaction at an index. -/
def roundOf (i : ℕ) : ℕ := (rounds transactions).getD i 0

/-- The transactions at two indices share an access key. -/
def Conflict (i j : ℕ) : Prop := ∃ k ∈ keysAt transactions i, k ∈ keysAt transactions j

/-- `n` transactions, each earlier than the next and in conflict with it, the last of them
in conflict with `j`. -/
inductive ConflictChain : ℕ → ℕ → Prop
  | single {j : ℕ} (hj : j < transactions.length) : ConflictChain j 0
  | step {i j n : ℕ} (hi : ConflictChain i n) (hlt : i < j) (hj : j < transactions.length)
      (hconflict : Conflict transactions i j) : ConflictChain j (n + 1)

/-- The transactions at the indices of an order, each with its index. -/
def inOrder (order : List ℕ) : List (ℕ × T) :=
  order.filterMap fun i => (transactions[i]?).map (i, ·)

variable {transactions}

theorem Conflict.symm {i j : ℕ} (h : Conflict transactions i j) : Conflict transactions j i :=
  let ⟨k, hi, hj⟩ := h
  ⟨k, hj, hi⟩

theorem ConflictChain.lt_length {j n : ℕ} (h : ConflictChain transactions j n) :
    j < transactions.length := by
  cases h with
  | single hj => exact hj
  | step _ _ hj _ => exact hj

/-- There are as many earlier indices as the chain is long. -/
theorem ConflictChain.le_index {j n : ℕ} (h : ConflictChain transactions j n) : n ≤ j := by
  induction h with
  | single => exact Nat.zero_le _
  | step _ hlt _ _ ih => exact Nat.succ_le_of_lt (ih.trans_lt hlt)

/-! ### One step of the pass -/

/-- The round after one more key. -/
def raise (lastTouch : Map Address ℕ) (round : ℕ) (key : Address) : ℕ :=
  (lastTouch.lookup key).elim round fun previous => max round (min (previous + 1) (2 ^ 32 - 1))

theorem raise_of_none {lastTouch : Map Address ℕ} {key : Address}
    (h : lastTouch.lookup key = none) (round : ℕ) : raise lastTouch round key = round := by
  unfold raise
  rw [h, Option.elim_none]

theorem raise_of_some {lastTouch : Map Address ℕ} {key : Address} {previous : ℕ}
    (h : lastTouch.lookup key = some previous) (round : ℕ) :
    raise lastTouch round key = max round (min (previous + 1) (2 ^ 32 - 1)) := by
  unfold raise
  rw [h, Option.elim_some]

theorem nextRound_eq (lastTouch : Map Address ℕ) (keys : List Address) :
    nextRound lastTouch keys = keys.foldl (raise lastTouch) 0 := by
  unfold nextRound
  congr 1
  ext round key
  unfold raise
  cases lastTouch.lookup key with
  | none => rfl
  | some previous => rfl

/-- A round is zero, or one more than that of the last toucher of a key. -/
theorem nextRound_cases (lastTouch : Map Address ℕ) (keys : List Address) :
    nextRound lastTouch keys = 0 ∨ ∃ key ∈ keys, ∃ previous, lastTouch.lookup key = some previous ∧
      nextRound lastTouch keys = min (previous + 1) (2 ^ 32 - 1) := by
  rw [nextRound_eq]
  -- the fold from any round so far, then from round 0
  suffices h : ∀ start, keys.foldl (raise lastTouch) start = start ∨ ∃ key ∈ keys, ∃ previous,
      lastTouch.lookup key = some previous ∧
        keys.foldl (raise lastTouch) start = min (previous + 1) (2 ^ 32 - 1) from h 0
  intro start
  -- induction on the keys still to be read
  induction keys generalizing start with
  | nil => exact Or.inl rfl
  | cons key keys ih =>
    rw [List.foldl_cons]
    cases hkey : lastTouch.lookup key with
    | none =>
      rw [raise_of_none hkey]
      obtain h | ⟨key', hmem, h⟩ := ih start
      · exact Or.inl h
      · exact Or.inr ⟨key', List.mem_cons_of_mem key hmem, h⟩
    | some previous =>
      rw [raise_of_some hkey]
      obtain h | ⟨key', hmem, h⟩ := ih (max start (min (previous + 1) (2 ^ 32 - 1)))
      · rw [h]
        -- the maximum is either the round so far or the one this key asks for
        obtain hmax | hmax := max_choice start (min (previous + 1) (2 ^ 32 - 1))
        · exact Or.inl hmax
        · exact Or.inr ⟨key, List.mem_cons_self, previous, hkey, hmax⟩
      · exact Or.inr ⟨key', List.mem_cons_of_mem key hmem, h⟩

/-- A round is above that of the last toucher of each key. -/
theorem le_nextRound {lastTouch : Map Address ℕ} {keys : List Address} {key : Address}
    {previous : ℕ} (hkey : key ∈ keys) (hprevious : lastTouch.lookup key = some previous) :
    min (previous + 1) (2 ^ 32 - 1) ≤ nextRound lastTouch keys := by
  -- the keys after it lower nothing
  have hgrow : ∀ (l : List Address) (start : ℕ), start ≤ l.foldl (raise lastTouch) start := by
    intro l
    induction l with
    | nil => exact fun start => le_rfl
    | cons k l ih =>
      intro start
      rw [List.foldl_cons]
      refine le_trans ?_ (ih _)
      cases hk : lastTouch.lookup k with
      | none => exact (raise_of_none hk start).ge
      | some q => exact (le_max_left _ _).trans (raise_of_some hk start).ge
  obtain ⟨before, after, rfl⟩ := List.append_of_mem hkey
  rw [nextRound_eq, List.foldl_append, List.foldl_cons, raise_of_some hprevious]
  exact (le_max_right _ _).trans (hgrow after _)

theorem lookup_foldl_touch (keys : List Address) (round : ℕ) (m : Map Address ℕ)
    (a : Address) : (keys.foldl (fun touch key => touch.insert key round) m).lookup a
      = if a ∈ keys then some round else m.lookup a := by
  induction keys generalizing m with
  | nil => simp
  | cons key keys ih =>
    rw [List.foldl_cons, ih, Maps.lookup_insert]
    by_cases ha : a ∈ keys
    · simp [ha]
    · by_cases hkey : a = key
      · simp [hkey]
      · simp [ha, hkey]

/-! ### The table along the pass -/

variable (transactions)

/-- The table of last touches when the pass arrives at an index. -/
def touchedAt : ℕ → Map Address ℕ
  | 0 => ∅
  | i + 1 => (keysAt transactions i).foldl
      (fun touch key => touch.insert key (roundOf transactions i)) (touchedAt i)

theorem touchedAt_succ (i : ℕ) : touchedAt transactions (i + 1)
    = (keysAt transactions i).foldl
        (fun touch key => touch.insert key (roundOf transactions i))
        (touchedAt transactions i) := rfl

/-- What is left of the rounds is what the pass still has to compute. -/
theorem drop_rounds (i : ℕ) :
    (rounds transactions).drop i
      = roundsFrom (touchedAt transactions i) (transactions.drop i) := by
  -- the fold of `rounds` stopped after `i` transactions
  induction i with
  | zero => rfl
  | succ i ih =>
    by_cases hi : i < transactions.length
    · have hdrop : transactions.drop i = transactions[i] :: transactions.drop (i + 1) :=
        List.drop_eq_getElem_cons hi
      have hkeys : keysAt transactions i = AccessSet.accessKeys transactions[i] := by
        unfold keysAt
        rw [List.getElem?_eq_getElem hi]
        rfl
      rw [hdrop] at ih
      have hround : roundOf transactions i
          = nextRound (touchedAt transactions i) (AccessSet.accessKeys transactions[i]) := by
        have h := congrArg List.head? ih
        rw [List.head?_drop] at h
        unfold roundOf
        rw [List.getD_eq_getElem?_getD, h]
        rfl
      rw [← List.tail_drop, ih, touchedAt_succ, hkeys, hround]
      rfl
    · -- past the end nothing is left on either side
      have hnil : transactions.drop i = [] := List.drop_eq_nil_of_le (Nat.le_of_not_lt hi)
      rw [hnil] at ih
      rw [← List.tail_drop, ih, ← List.tail_drop, hnil]
      rfl

theorem length_rounds : (rounds transactions).length = transactions.length := by
  suffices h : ∀ lastTouch, (roundsFrom lastTouch transactions).length = transactions.length
    from h ∅
  induction transactions with
  | nil => exact fun _ => rfl
  | cons transaction transactions ih => exact fun _ => congrArg (· + 1) (ih _)

variable {transactions}

theorem roundOf_eq {j : ℕ} (hj : j < transactions.length) :
    roundOf transactions j = nextRound (touchedAt transactions j) (keysAt transactions j) := by
  have h := congrArg List.head? (drop_rounds transactions j)
  rw [List.drop_eq_getElem_cons hj, List.head?_drop] at h
  unfold roundOf keysAt
  rw [List.getD_eq_getElem?_getD, h, List.getElem?_eq_getElem hj]
  rfl

/-- The table holds the round of the last transaction that touched a key. -/
theorem lookup_touchedAt {j : ℕ} {key : Address} {previous : ℕ} :
    (touchedAt transactions j).lookup key = some previous ↔
      ∃ i < j, key ∈ keysAt transactions i ∧ roundOf transactions i = previous ∧
        ∀ i' < j, key ∈ keysAt transactions i' → i' ≤ i := by
  induction j with
  | zero =>
    refine iff_of_false (fun h => ?_) fun ⟨i, hi, _⟩ => absurd hi (Nat.not_lt_zero i)
    simp [touchedAt] at h
  | succ j ih =>
    rw [touchedAt_succ, lookup_foldl_touch]
    by_cases hkey : key ∈ keysAt transactions j
    · -- the transaction at `j` is now the last one to touch the key
      rw [if_pos hkey, Option.some.injEq]
      refine ⟨?_, ?_⟩
      · rintro rfl
        exact ⟨j, Nat.lt_succ_self j, hkey, rfl, fun i' hi' _ => Nat.le_of_lt_succ hi'⟩
      · rintro ⟨i, hi, -, rfl, hlast⟩
        rw [le_antisymm (Nat.le_of_lt_succ hi) (hlast j (Nat.lt_succ_self j) hkey)]
    · -- the transaction at `j` does not touch the key, so the last toucher stays
      rw [if_neg hkey, ih]
      have hne : ∀ i, i < j + 1 → key ∈ keysAt transactions i → i < j := fun i hi hk =>
        lt_of_le_of_ne (Nat.le_of_lt_succ hi) fun he => hkey (he ▸ hk)
      refine ⟨?_, ?_⟩
      · rintro ⟨i, hi, hk, hround, hlast⟩
        exact ⟨i, Nat.lt_succ_of_lt hi, hk, hround, fun i' hi' hk' => hlast i' (hne i' hi' hk') hk'⟩
      · rintro ⟨i, hi, hk, hround, hlast⟩
        exact ⟨i, hne i hi hk, hk, hround,
          fun i' hi' hk' => hlast i' (Nat.lt_succ_of_lt hi') hk'⟩

theorem exists_lookup_touchedAt {i j : ℕ} {key : Address} (hij : i < j)
    (hkey : key ∈ keysAt transactions i) :
    ∃ i' < j, i ≤ i' ∧ key ∈ keysAt transactions i' ∧
      (touchedAt transactions j).lookup key = some (roundOf transactions i') := by
  classical
  -- the last of the touchers before `j`
  let touchers := (Finset.range j).filter (key ∈ keysAt transactions ·)
  have hmem : i ∈ touchers := Finset.mem_filter.mpr ⟨Finset.mem_range.mpr hij, hkey⟩
  obtain ⟨last, hlast, hmax⟩ := touchers.exists_max_image id ⟨i, hmem⟩
  obtain ⟨hlt, hkey'⟩ := Finset.mem_filter.mp hlast
  refine ⟨last, Finset.mem_range.mp hlt, hmax i hmem, hkey', lookup_touchedAt.mpr ?_⟩
  exact ⟨last, Finset.mem_range.mp hlt, hkey', rfl,
    fun i' hi' hk' => hmax i' (Finset.mem_filter.mpr ⟨Finset.mem_range.mpr hi', hk'⟩)⟩

/-! ### What a round is -/

/-- A round is zero, or one more than that of an earlier transaction in conflict. -/
theorem roundOf_cases {j : ℕ} (hj : j < transactions.length) :
    roundOf transactions j = 0 ∨ ∃ i < j, Conflict transactions i j ∧
      roundOf transactions j = min (roundOf transactions i + 1) (2 ^ 32 - 1) := by
  rw [roundOf_eq hj]
  obtain h | ⟨key, hkey, previous, hprevious, h⟩ :=
    nextRound_cases (touchedAt transactions j) (keysAt transactions j)
  · exact Or.inl h
  · obtain ⟨i, hi, hki, rfl, -⟩ := lookup_touchedAt.mp hprevious
    exact Or.inr ⟨i, hi, ⟨key, hki, hkey⟩, h⟩

theorem roundOf_le {j : ℕ} (hj : j < transactions.length) :
    roundOf transactions j ≤ 2 ^ 32 - 1 := by
  obtain h | ⟨i, -, -, h⟩ := roundOf_cases hj
  · rw [h]
    exact Nat.zero_le _
  · rw [h]
    exact min_le_right _ _

/-- A round is above the rounds of all earlier transactions in conflict, up to saturation:
of those that touch a common key, the last has the highest round. -/
theorem min_roundOf_le {i j : ℕ} (hij : i < j) (hj : j < transactions.length)
    (hconflict : Conflict transactions i j) :
    min (roundOf transactions i + 1) (2 ^ 32 - 1) ≤ roundOf transactions j := by
  -- the last transaction before `j` to touch the key stands between `i` and `j`
  induction j using Nat.strong_induction_on with
  | _ j ih =>
    obtain ⟨key, hi, hkj⟩ := hconflict
    obtain ⟨last, hlast, hle, hkey, hlookup⟩ := exists_lookup_touchedAt hij hi
    have hround : min (roundOf transactions last + 1) (2 ^ 32 - 1) ≤ roundOf transactions j := by
      rw [roundOf_eq hj]
      exact le_nextRound hkj hlookup
    -- either it is `i` itself, or its round is already past the round of `i`
    obtain rfl | hlt := hle.eq_or_lt
    · exact hround
    · have hmono := ih last hlast hlt (hlast.trans hj) ⟨key, hi, hkey⟩
      have hbound := roundOf_le (hlast.trans hj)
      omega

section Unsaturated

variable (hshort : ∀ j m, ConflictChain transactions j m → m < 2 ^ 32)

include hshort

/-- A round is the length of a chain of conflicts. -/
theorem conflictChain_roundOf {j : ℕ} (hj : j < transactions.length) :
    ConflictChain transactions j (roundOf transactions j) := by
  induction j using Nat.strong_induction_on with
  | _ j ih =>
    obtain h | ⟨i, hij, hconflict, h⟩ := roundOf_cases hj
    · rw [h]
      exact .single hj
    · have hchain : ConflictChain transactions j (roundOf transactions i + 1) :=
        .step (ih i hij (hij.trans hj)) hij hj hconflict
      -- the chain is short, so the addition did not saturate
      rw [h, min_eq_left (Nat.le_sub_one_of_lt (hshort _ _ hchain))]
      exact hchain

theorem roundOf_lt_of_conflict {i j : ℕ} (hij : i < j) (hj : j < transactions.length)
    (hconflict : Conflict transactions i j) : roundOf transactions i < roundOf transactions j := by
  have hchain := hshort _ _
    (.step (conflictChain_roundOf hshort (hij.trans hj)) hij hj hconflict)
  have hle := min_roundOf_le hij hj hconflict
  rw [min_eq_left (Nat.le_sub_one_of_lt hchain)] at hle
  exact hle

theorem ConflictChain.le_roundOf {j m : ℕ} (h : ConflictChain transactions j m) :
    m ≤ roundOf transactions j := by
  induction h with
  | single => exact Nat.zero_le _
  | step _ hlt hj hconflict ih =>
    exact Nat.succ_le_of_lt (ih.trans_lt (roundOf_lt_of_conflict hshort hlt hj hconflict))

/-- The round of a transaction is the length of the longest chain that ends at it. -/
theorem isGreatest_roundOf {j : ℕ} (hj : j < transactions.length) :
    IsGreatest {m | ConflictChain transactions j m} (roundOf transactions j) :=
  ⟨conflictChain_roundOf hshort hj, fun _ hm => ConflictChain.le_roundOf hshort hm⟩

/-- Two transactions of one round share no key. -/
theorem not_conflict_of_roundOf_eq {i j : ℕ} (hi : i < transactions.length)
    (hj : j < transactions.length) (hne : i ≠ j)
    (hround : roundOf transactions i = roundOf transactions j) :
    ¬ Conflict transactions i j := by
  intro hconflict
  obtain hlt | hlt := hne.lt_or_gt
  · exact (roundOf_lt_of_conflict hshort hlt hj hconflict).ne hround
  · exact (roundOf_lt_of_conflict hshort hlt hi hconflict.symm).ne hround.symm

end Unsaturated

/-! ### The sorted order -/

/-- The order of execution: by round, and by index within a round. -/
def RoundLE (transactions : List T) (i j : ℕ) : Prop :=
  roundOf transactions i < roundOf transactions j ∨
    roundOf transactions i = roundOf transactions j ∧ i ≤ j

instance decidableRoundLE : DecidableRel (RoundLE transactions) := fun i j =>
  inferInstanceAs (Decidable (roundOf transactions i < roundOf transactions j ∨
    roundOf transactions i = roundOf transactions j ∧ i ≤ j))

theorem roundLE_total (i j : ℕ) : RoundLE transactions i j ∨ RoundLE transactions j i := by
  unfold RoundLE
  omega

theorem roundLE_trans {i j k : ℕ} (hij : RoundLE transactions i j)
    (hjk : RoundLE transactions j k) : RoundLE transactions i k := by
  unfold RoundLE at *
  omega

theorem roundLE_antisymm {i j : ℕ} (hij : RoundLE transactions i j)
    (hji : RoundLE transactions j i) : i = j := by
  unfold RoundLE at *
  omega

theorem pairwise_layerAndSort (transactions : List T) :
    (layerAndSort transactions).Pairwise (RoundLE transactions) := by
  have : Std.Total (RoundLE transactions) := ⟨roundLE_total⟩
  have : IsTrans ℕ (RoundLE transactions) := ⟨fun _ _ _ => roundLE_trans⟩
  exact List.pairwise_insertionSort (RoundLE transactions) _

theorem nodup_layerAndSort (transactions : List T) : (layerAndSort transactions).Nodup :=
  (layerAndSort_perm transactions).nodup_iff.mpr List.nodup_range

theorem mem_layerAndSort {i : ℕ} : i ∈ layerAndSort transactions ↔ i < transactions.length :=
  (layerAndSort_perm transactions).mem_iff.trans List.mem_range

theorem pair_sublist_range {i j n : ℕ} (hij : i < j) (hj : j < n) :
    [i, j].Sublist (List.range n) := by
  refine List.sublist_of_subperm_of_pairwise (r := (· ≤ ·)) ?_
    (List.pairwise_pair.mpr hij.le) (List.pairwise_lt_range.imp fun h => h.le)
  refine List.subperm_of_subset ?_ ?_
  · exact List.nodup_cons.mpr ⟨fun h => hij.ne (List.mem_singleton.mp h), List.nodup_singleton j⟩
  · intro k hk
    obtain rfl | hk := List.mem_cons.mp hk
    · exact List.mem_range.mpr (hij.trans hj)
    · exact List.mem_range.mpr (List.mem_singleton.mp hk ▸ hj)

/-- An earlier index that does not have a higher round stays the earlier one. -/
theorem pair_sublist_layerAndSort {i j : ℕ} (hij : i < j) (hj : j < transactions.length)
    (hround : roundOf transactions i ≤ roundOf transactions j) :
    [i, j].Sublist (layerAndSort transactions) := by
  have hle : RoundLE transactions i j := hround.lt_or_eq.imp_right fun h => ⟨h, hij.le⟩
  have : Std.Total (RoundLE transactions) := ⟨roundLE_total⟩
  have : IsTrans ℕ (RoundLE transactions) := ⟨fun _ _ _ => roundLE_trans⟩
  exact List.pair_sublist_insertionSort hle (pair_sublist_range hij hj)

omit [AccessSet T] in
theorem mem_inOrder {order : List ℕ} {item : ℕ × T} :
    item ∈ inOrder transactions order ↔
      item.1 ∈ order ∧ transactions[item.1]? = some item.2 := by
  unfold inOrder
  rw [List.mem_filterMap]
  refine ⟨?_, ?_⟩
  · rintro ⟨i, hi, h⟩
    obtain ⟨t, ht, rfl⟩ := Option.map_eq_some_iff.mp h
    exact ⟨hi, ht⟩
  · rintro ⟨hi, h⟩
    exact ⟨item.1, hi, by rw [h]; rfl⟩

omit [AccessSet T] in
theorem map_fst_inOrder {order : List ℕ} (h : ∀ i ∈ order, i < transactions.length) :
    (inOrder transactions order).map Prod.fst = order := by
  induction order with
  | nil => rfl
  | cons i order ih =>
    have hi := h i List.mem_cons_self
    have hcons : inOrder transactions (i :: order)
        = (i, transactions[i]) :: inOrder transactions order := by
      unfold inOrder
      rw [List.filterMap_cons, List.getElem?_eq_getElem hi]
      rfl
    rw [hcons, List.map_cons, ih fun j hj => h j (List.mem_cons_of_mem i hj)]

/-! ### Soundness of the reorder -/

/-- What the layering promises of the order and the rounds. -/
structure LayeringSound (transactions : List T) : Prop where
  /-- No transaction is lost and none is repeated. -/
  perm : (layerAndSort transactions).Perm (List.range transactions.length)
  /-- Transactions that share a key keep their relative order. -/
  keeps : ∀ i j, i < j → j < transactions.length → Conflict transactions i j →
    [i, j].Sublist (layerAndSort transactions)
  /-- Every transaction has a round. -/
  length : (rounds transactions).length = transactions.length
  /-- The round is the length of the longest chain of conflicts that ends there. -/
  longest : ∀ j < transactions.length,
    IsGreatest {m | ConflictChain transactions j m} (roundOf transactions j)
  /-- Transactions of one round share no key. -/
  apart : ∀ i < transactions.length, ∀ j < transactions.length, i ≠ j →
    roundOf transactions i = roundOf transactions j → ¬ Conflict transactions i j

theorem layeringSound_of_short
    (hshort : ∀ j m, ConflictChain transactions j m → m < 2 ^ 32) :
    LayeringSound transactions where
  perm := layerAndSort_perm transactions
  keeps _ _ hij hj hconflict :=
    pair_sublist_layerAndSort hij hj (roundOf_lt_of_conflict hshort hij hj hconflict).le
  length := length_rounds transactions
  longest _ hj := isGreatest_roundOf hshort hj
  apart _ hi _ hj hne hround := not_conflict_of_roundOf_eq hshort hi hj hne hround

/-- Executing in the canonical order is executing in the base order. -/
theorem LayeringSound.exec_eq (h : LayeringSound transactions) {V R : Type*}
    {run : T → (Address → V) → R × (Address → V)}
    (hlocal : Reorder.Local AccessSet.accessKeys run) (s : Address → V) :
    (Reorder.exec (fun item => run item.2) (inOrder transactions (layerAndSort transactions)) s).2
        = (Reorder.exec (fun item => run item.2)
            (inOrder transactions (List.range transactions.length)) s).2 ∧
      (Reorder.exec (fun item => run item.2)
          (inOrder transactions (layerAndSort transactions)) s).1.Perm
        (Reorder.exec (fun item => run item.2)
          (inOrder transactions (List.range transactions.length)) s).1 := by
  have hbase : (inOrder transactions (List.range transactions.length)).map Prod.fst = _ :=
    map_fst_inOrder fun i hi => List.mem_range.mp hi
  have hsorted : (inOrder transactions (layerAndSort transactions)).map Prod.fst = _ :=
    map_fst_inOrder fun i hi => mem_layerAndSort.mp hi
  have hnodup : (inOrder transactions (List.range transactions.length)).Nodup := by
    refine List.Nodup.of_map Prod.fst ?_
    rw [hbase]
    exact List.nodup_range
  have hlocal' : Reorder.Local (fun item : ℕ × T => AccessSet.accessKeys item.2)
      (fun item => run item.2) :=
    ⟨fun item => hlocal.writes item.2, fun item => hlocal.reads item.2⟩
  refine Reorder.exec_eq_of_reordered (h.perm.filterMap _) hnodup (fun x y hxy hyx => ?_) s
  -- a pair that changes places does not conflict, so it has no key in common
  have hxy' : [x.1, y.1].Sublist (List.range transactions.length) := hbase ▸ hxy.map Prod.fst
  have hyx' : [y.1, x.1].Sublist (layerAndSort transactions) := hsorted ▸ hyx.map Prod.fst
  have hlt : x.1 < y.1 :=
    List.pairwise_iff_forall_sublist.mp List.pairwise_lt_range hxy'
  have hlength : y.1 < transactions.length :=
    List.mem_range.mp (hxy'.subset (List.mem_cons_of_mem _ List.mem_cons_self))
  have hapart : ¬ Conflict transactions x.1 y.1 := by
    intro hconflict
    have hle := List.pairwise_iff_forall_sublist.mp (pairwise_layerAndSort transactions)
      (h.keeps x.1 y.1 hlt hlength hconflict)
    have hle' := List.pairwise_iff_forall_sublist.mp (pairwise_layerAndSort transactions) hyx'
    exact hlt.ne (roundLE_antisymm hle hle')
  refine hlocal'.independent fun k hkx hky => hapart ⟨k, ?_, ?_⟩
  · rw [keysAt, (mem_inOrder.mp (hxy.subset List.mem_cons_self)).2]
    exact hkx
  · rw [keysAt,
      (mem_inOrder.mp (hxy.subset (List.mem_cons_of_mem _ List.mem_cons_self))).2]
    exact hky

/-- **The layering reorder is sound.** On fewer than `2 ^ 32` transactions the order keeps
every conflict, a round is the length of the longest chain of conflicts, and executing in
the canonical order ends where executing in the base order ends, with the same result for
every transaction. -/
theorem layering_sound (transactions : List T) (hlength : transactions.length < 2 ^ 32) :
    LayeringSound transactions ∧
      ∀ {V R : Type*} (run : T → (Address → V) → R × (Address → V)),
        Reorder.Local AccessSet.accessKeys run → ∀ s : Address → V,
          (Reorder.exec (fun item => run item.2)
              (inOrder transactions (layerAndSort transactions)) s).2
            = (Reorder.exec (fun item => run item.2)
                (inOrder transactions (List.range transactions.length)) s).2 ∧
          (Reorder.exec (fun item => run item.2)
              (inOrder transactions (layerAndSort transactions)) s).1.Perm
            (Reorder.exec (fun item => run item.2)
              (inOrder transactions (List.range transactions.length)) s).1 := by
  -- fewer than 2^32 transactions bound every chain of conflicts, so no round saturates
  have hsound : LayeringSound transactions := layeringSound_of_short fun j m hchain =>
    (hchain.le_index.trans_lt hchain.lt_length).trans hlength
  exact ⟨hsound, fun run hlocal s => hsound.exec_eq hlocal s⟩

end Layering

/-- A transaction that is nothing but its access keys. -/
instance accessSetOfKeys : AccessSet (List Address) := ⟨id⟩

/-- Reads the counters of its keys and raises them. -/
def tally (keys : List Address) (counters : Address → ℕ) : List ℕ × (Address → ℕ) :=
  (keys.map counters, fun key => counters key + keys.count key)

theorem tally_local : Reorder.Local AccessSet.accessKeys tally where
  writes keys counters key hkey := by
    have hzero : keys.count key = 0 := List.count_eq_zero.mpr hkey
    simp [tally, hzero]
  reads keys counters counters' h :=
    ⟨List.map_congr_left h, fun key hkey => congrArg (· + keys.count key) (h key hkey)⟩

/-- The second has to wait for the first, the third does not. -/
def threeTransactions : List (List Address) := [[0], [0, 1], [2]]

theorem layering_sound_tally :
    LayeringSound threeTransactions ∧
      (Reorder.exec (fun item => tally item.2)
          (inOrder threeTransactions (layerAndSort threeTransactions)) fun _ => 0).2
        = (Reorder.exec (fun item => tally item.2)
            (inOrder threeTransactions (List.range 3)) fun _ => 0).2 :=
  have h := layering_sound threeTransactions (by decide)
  ⟨h.1, (h.2 tally tally_local _).1⟩

example : layerAndSort threeTransactions = [0, 2, 1] := by decide

end Chainname
