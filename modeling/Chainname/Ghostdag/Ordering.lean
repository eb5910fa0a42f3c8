import Chainname.Ghostdag.Store

/-!
# From topology to an execution order

A chain block executes its merge set in topological order and then itself
(`baseSequence`). The transactions met on the way are deduplicated, the first occurrence
owning them, and layered: a transaction's round is one more than the highest round of any
earlier transaction it shares a declared address with. The canonical order sorts by
`(round, index)`.
-/

namespace Chainname

/-- The merge set of `chainBlock` in execution order, followed by the chain block itself. -/
def DagStore.baseSequence (D : DagStore) (chainBlock : BlockHash) : List BlockHash :=
  match D.data.lookup chainBlock with
  | none => [chainBlock]
  | some data => data.mergesetOrdered ++ [chainBlock]

/-- A transaction's statically declared access set. -/
class AccessSet (T : Type) where
  accessKeys : T → List Address

section Layering

variable {T : Type} [AccessSet T]

/-- One more than the highest round of an earlier transaction that shares a key, in
saturating 32-bit arithmetic. -/
def nextRound (lastTouch : Map Address ℕ) (keys : List Address) : ℕ :=
  keys.foldl
    (fun round key => match lastTouch.lookup key with
      | some previous => max round (min (previous + 1) (2 ^ 32 - 1))
      | none => round) 0

/-- The rounds of the remaining transactions, given who last touched each address. -/
def roundsFrom : Map Address ℕ → List T → List ℕ
  | _, [] => []
  | lastTouch, transaction :: transactions =>
    let keys := AccessSet.accessKeys transaction
    let round := nextRound lastTouch keys
    round :: roundsFrom (keys.foldl (fun touch key => touch.insert key round) lastTouch)
      transactions

/-- The round each transaction was assigned. -/
def rounds (transactions : List T) : List ℕ := roundsFrom ∅ transactions

/-- The canonical execution order: the indices sorted by `(round, index)`. -/
def layerAndSort (transactions : List T) : List ℕ :=
  (List.range transactions.length).insertionSort fun i j =>
    (rounds transactions).getD i 0 < (rounds transactions).getD j 0 ∨
      (rounds transactions).getD i 0 = (rounds transactions).getD j 0 ∧ i ≤ j

end Layering

/-- Removes later items whose key was seen before. -/
def deduplicate {T K : Type} [DecidableEq K] (key : T → K) : Finset K → List T → List T
  | _, [] => []
  | seen, item :: items =>
    if key item ∈ seen then deduplicate key seen items
    else item :: deduplicate key (insert (key item) seen) items

section Deduplicate

variable {T K : Type} [DecidableEq K] {key : T → K}

/-- The keys that are left are those that were not seen before. -/
theorem mem_map_deduplicate {seen : Finset K} {items : List T} {k : K} :
    k ∈ (deduplicate key seen items).map key ↔ k ∈ items.map key ∧ k ∉ seen := by
  induction items generalizing seen with
  | nil => simp [deduplicate]
  | cons item items ih =>
    unfold deduplicate
    split
    · next hseen =>
      rw [ih, List.map_cons, List.mem_cons]
      refine ⟨fun h => ⟨Or.inr h.1, h.2⟩, fun h => ⟨h.1.resolve_left ?_, h.2⟩⟩
      rintro rfl
      exact h.2 hseen
    · next hseen =>
      rw [List.map_cons, List.mem_cons, ih, List.map_cons, List.mem_cons, Finset.mem_insert]
      by_cases hk : k = key item
      · simp [hk, hseen]
      · simp [hk]

/-- No two items that are left have the same key. -/
theorem nodup_deduplicate (seen : Finset K) (items : List T) :
    ((deduplicate key seen items).map key).Nodup := by
  induction items generalizing seen with
  | nil => exact List.nodup_nil
  | cons item items ih =>
    unfold deduplicate
    split
    · exact ih seen
    · rw [List.map_cons, List.nodup_cons, mem_map_deduplicate]
      exact ⟨fun h => h.2 (Finset.mem_insert_self _ _), ih _⟩

/-- An item that is left is the first of its key. -/
theorem first_of_mem_deduplicate {seen : Finset K} {items : List T} {item : T}
    (h : item ∈ deduplicate key seen items) :
    ∃ before after, items = before ++ item :: after ∧ ∀ x ∈ before, key x ≠ key item := by
  induction items generalizing seen with
  | nil => exact absurd h List.not_mem_nil
  | cons first items ih =>
    have hkey : key item ∉ seen :=
      (mem_map_deduplicate.mp (List.mem_map_of_mem h)).2
    unfold deduplicate at h
    split at h
    · next hseen =>
      obtain ⟨before, after, rfl, hfirst⟩ := ih h
      refine ⟨first :: before, after, rfl, List.forall_mem_cons.mpr ⟨?_, hfirst⟩⟩
      exact fun he => hkey (he ▸ hseen)
    · obtain rfl | h := List.mem_cons.mp h
      · exact ⟨[], items, rfl, fun x hx => absurd hx List.not_mem_nil⟩
      · have hne : key first ≠ key item := fun he =>
          (mem_map_deduplicate.mp (List.mem_map_of_mem h)).2 (he ▸ Finset.mem_insert_self _ _)
        obtain ⟨before, after, rfl, hfirst⟩ := ih h
        exact ⟨first :: before, after, rfl, List.forall_mem_cons.mpr ⟨hne, hfirst⟩⟩

end Deduplicate

/-- The layering sorts the indices and loses none. -/
theorem layerAndSort_perm {T : Type} [AccessSet T] (transactions : List T) :
    (layerAndSort transactions).Perm (List.range transactions.length) :=
  List.perm_insertionSort _ _

end Chainname
