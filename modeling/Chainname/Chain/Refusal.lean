import Chainname.Chain.Bookkeeping

/-!
# Refused reorganisations

`apply_reorg` undoes, then executes, and returns at the first error. What it did before the
error stays done, so a refusal usually changes the executor. `Harmless` lists the calls for
which it does not: nothing is refused, the very first undo is refused, or what was executed
again before the refusal is exactly what had been undone and gives the old records back.

That there is nothing else is a count. Undoing lowers the height by one a block, executing
raises it by one, so equal heights mean equally many; and the journal then names the same
blocks on both sides.
-/

namespace Chainname

namespace ChainExecutor

/-- The blocks of the journal, newest first. -/
def undoable (X : ChainExecutor) : List BlockHash := X.newestFirst.map fun entry => entry.2.1

/-- Accounts, results, journal, height and tip are the same. -/
structure SameRecords (X Y : ChainExecutor) : Prop where
  accounts : Y.state.accounts = X.state.accounts
  results : Y.results = X.results
  journal : Y.journal = X.journal
  height : Y.height = X.height
  tip : Y.tip = X.tip

theorem SameRecords.refl (X : ChainExecutor) : SameRecords X X := ⟨rfl, rfl, rfl, rfl, rfl⟩

/-- The blocks at the head of a list that the store knows. -/
def known (D : DagStore) (added : List BlockHash) : List BlockHash :=
  added.takeWhile (· ∈ D.headers)

section Refusal

variable [Evm] [Trie] [FeeRule]

/-- Calls of `apply_reorg` that are not refused, or are refused with nothing changed. -/
inductive Harmless (X : ChainExecutor) (D : DagStore) (bodies : BodyStore)
    (removed added : List BlockHash) : Prop where
  /-- The journal runs down through `removed`, and every added block is known. -/
  | accepted : removed <+: X.undoable → (∀ hash ∈ added, hash ∈ D.headers) →
      Harmless X D bodies removed added
  /-- The first undo is already refused. -/
  | atOnce (hash : BlockHash) (rest : List BlockHash) : removed = hash :: rest →
      X.undoable.head? ≠ some hash → Harmless X D bodies removed added
  /-- The known blocks before the first unknown one are the undone ones in their old order,
  and executing them again gives their records back. -/
  | replay : removed <+: X.undoable → known D added = removed.reverse →
      SameRecords X ((X.undoAll removed).1.executeAll D bodies removed.reverse []).1 →
      Harmless X D bodies removed added

/-! ### What executing a list does to height and journal -/

/-- A list is executed up to its first unknown block. -/
theorem executeAll_known (X : ChainExecutor) (D : DagStore) (bodies : BodyStore)
    (added : List BlockHash) (outcomes outcomes' : List ChainBlockOutcome) :
    (X.executeAll D bodies added outcomes).1
        = (X.executeAll D bodies (known D added) outcomes').1 ∧
      ((X.executeAll D bodies added outcomes).2.isOk = true ↔
        ∀ hash ∈ added, hash ∈ D.headers) := by
  -- the blocks still to be executed, whatever has been executed before them
  induction added generalizing X outcomes outcomes' with
  | nil => exact ⟨rfl, iff_of_true rfl fun _ h => absurd h List.not_mem_nil⟩
  | cons hash added ih =>
    obtain ⟨hno, heq⟩ | ⟨outcome, -, -, X', hmem, heq, -⟩ :=
      executeChainBlock_cases X D bodies hash
    · -- the first block is unknown: nothing is executed on either side
      have hnil : known D (hash :: added) = [] := by
        unfold known
        rw [List.takeWhile_cons_of_neg (by simpa using hno)]
      rw [hnil]
      unfold executeAll
      rw [heq]
      refine ⟨rfl, iff_of_false Bool.false_ne_true fun hall => ?_⟩
      exact hno (hall hash List.mem_cons_self)
    · -- a known block: the same executor goes on with the rest
      have hcons : known D (hash :: added) = hash :: known D added := by
        unfold known
        rw [List.takeWhile_cons_of_pos (by simpa using hmem)]
      rw [hcons]
      unfold executeAll
      rw [heq]
      obtain ⟨hfst, hok⟩ := ih X' (outcomes ++ [outcome]) (outcomes' ++ [outcome])
      refine ⟨hfst, hok.trans ?_⟩
      rw [List.forall_mem_cons]
      exact ⟨fun hall => ⟨hmem, hall⟩, fun hall => hall.2⟩

/-- Executing known blocks raises the height by their number, and puts them on the journal;
pruning may take old records off. -/
theorem executeAll_journal (X : ChainExecutor) (D : DagStore) (bodies : BodyStore)
    (added : List BlockHash) (outcomes : List ChainBlockOutcome)
    (hknown : ∀ hash ∈ added, hash ∈ D.headers) :
    (X.executeAll D bodies added outcomes).1.height = X.height + added.length ∧
      (X.executeAll D bodies added outcomes).1.undoable.Sublist
        (added.reverse ++ X.undoable) := by
  -- each block executed raises the height and may be journaled on top
  induction added generalizing X outcomes with
  | nil => exact ⟨rfl, List.Sublist.refl _⟩
  | cons hash added ih =>
    obtain ⟨hno, -⟩ | ⟨outcome, undo, below, X', -, heq, -, -, hheight, -, hjournal⟩ :=
      executeChainBlock_cases X D bodies hash
    · exact absurd (hknown hash List.mem_cons_self) hno
    -- what `finish` prunes from the bottom can only make the journal shorter
    have hX' : X'.undoable.Sublist (hash :: X.undoable) := by
      show (X'.journal.reverse.map fun entry => entry.2.1).Sublist _
      rw [hjournal, ← List.filter_reverse, List.reverse_append]
      exact List.filter_sublist.map fun entry : ℕ × BlockHash × UndoRecord => entry.2.1
    obtain ⟨hrest, hsub⟩ := ih X' (outcomes ++ [outcome]) fun h hm =>
      hknown h (List.mem_cons_of_mem hash hm)
    unfold executeAll
    rw [heq]
    refine ⟨?_, ?_⟩
    · show (X'.executeAll D bodies added (outcomes ++ [outcome])).1.height = _
      rw [hrest, hheight, List.length_cons]
      omega
    · refine hsub.trans ?_
      rw [List.reverse_cons, List.append_assoc]
      exact (List.Sublist.refl _).append hX'

/-! ### The count -/

omit [Evm] [Trie] [FeeRule] in
theorem Undone.undoable_eq {X X' : ChainExecutor} {removed : List BlockHash}
    {popped : List (ℕ × BlockHash × UndoRecord)} (h : Undone X removed X' popped) :
    X.undoable = removed ++ X'.undoable := by
  unfold undoable
  rw [h.newestFirst, List.map_append, h.hashes]

/-- If a list was undone, another executed, and the records are the same again, then the
second list is the first one turned round. -/
theorem Undone.replay {X X' : ChainExecutor} {removed added : List BlockHash}
    {popped : List (ℕ × BlockHash × UndoRecord)} (h : Undone X removed X' popped)
    {D : DagStore} {bodies : BodyStore} (hknown : ∀ hash ∈ added, hash ∈ D.headers)
    (hsame : SameRecords X (X'.executeAll D bodies added []).1) : added = removed.reverse := by
  obtain ⟨hheight, hsub⟩ := executeAll_journal X' D bodies added [] hknown
  have hlen : added.length = removed.length := by
    have h₁ := hsame.height
    have h₂ := h.height
    omega
  have hundoable : (X'.executeAll D bodies added []).1.undoable = removed ++ X'.undoable := by
    rw [← h.undoable_eq]
    exact congrArg (fun journal => (journal.reverse.map fun entry => entry.2.1)) hsame.journal
  -- nothing can have been pruned, the two journals being equally long
  rw [hundoable] at hsub
  have heq := hsub.eq_of_length (by simp [hlen])
  have hfirst := (List.append_inj heq (by simp [hlen])).1
  rw [hfirst, List.reverse_reverse]

end Refusal

end ChainExecutor

end Chainname
