import Chainname.Chain.Replay

/-!
# What executing keeps, undoing keeps

The results of an executor are a stack of outcomes, newest first, and its journal takes the
accounts back, block by block, to what they were. So a property of the accounts and the stack
that holds at every block when it is executed holds again when the blocks above it have been
undone: `Stands` says that it holds of the executor as it is and as it would be after each undo
that the journal allows, and `Stands.undoAll` and `Stands.execute` that the two loops of a
reorganisation keep this.

Nothing is said about where the blocks come from, and the EVM may be any.
-/

namespace Chainname

namespace ChainExecutor

/-- The results are those of a stack of outcomes, one for every height. -/
structure Results (X : ChainExecutor) (stack : List ChainBlockOutcome) : Prop where
  length : stack.length = X.height + 1
  lookup : ∀ i, X.results.lookup i = stack.reverse[i]?
  height : ∀ i (outcome : ChainBlockOutcome), stack.reverse[i]? = some outcome →
    outcome.height = i

section Rewinds

variable (P : WorldState → List ChainBlockOutcome → Prop)

/-- The property holds now, and after each undo of a list of records, newest first. The oldest
outcome is not undone. -/
def Rewinds : List (ℕ × BlockHash × UndoRecord) → WorldState → List ChainBlockOutcome → Prop
  | [], s, stack => P s stack
  | _ :: _, _, [] => False
  | entry :: records, s, outcome :: older =>
    (older ≠ [] ∧ entry.1 = older.length ∧ entry.2.1 = outcome.hash ∧ P s (outcome :: older)) ∧
      Rewinds records (UndoRecord.apply entry.2.2 s) older

/-- The property looks at the accounts of a state only. -/
def OfAccounts : Prop :=
  ∀ s S stack, S.accounts = s.accounts → P s stack → P S stack

variable {P} {s S : WorldState} {stack : List ChainBlockOutcome}
  {records : List (ℕ × BlockHash × UndoRecord)}

theorem Rewinds.now (h : Rewinds P records s stack) : P s stack := by
  cases records with
  | nil => exact h
  | cons entry records =>
    cases stack with
    | nil => exact absurd h id
    | cons outcome older => exact h.1.2.2.2

theorem apply_congr (record : UndoRecord) (h : S.accounts = s.accounts) :
    (UndoRecord.apply record S).accounts = (UndoRecord.apply record s).accounts := by
  refine Finmap.ext_lookup fun a => ?_
  rw [UndoRecord.lookup_apply, UndoRecord.lookup_apply, h]

theorem Rewinds.congr (hP : OfAccounts P) (h : Rewinds P records s stack)
    (hsame : S.accounts = s.accounts) : Rewinds P records S stack := by
  induction records generalizing s S stack with
  | nil => exact hP s S stack hsame h
  | cons entry records ih =>
    cases stack with
    | nil => exact absurd h id
    | cons outcome older =>
      obtain ⟨⟨hne, hheight, hhash, hnow⟩, holder⟩ := h
      exact ⟨⟨hne, hheight, hhash, hP s S _ hsame hnow⟩, ih holder (apply_congr entry.2.2 hsame)⟩

/-- Records of a stack that ends below the bound are all pruned. -/
theorem Rewinds.prune_eq_nil {below : ℕ} (h : Rewinds P records s stack)
    (hlen : stack.length ≤ below) : (records.filter fun entry => below ≤ entry.1) = [] := by
  induction records generalizing s stack with
  | nil => rfl
  | cons entry records ih =>
    cases stack with
    | nil => exact absurd h id
    | cons outcome older =>
      rw [List.length_cons] at hlen
      -- the newest record is already below the bound, and the older ones are lower still
      have hlow : ¬ below ≤ entry.1 := by
        rw [h.1.2.1]
        omega
      rw [List.filter_cons_of_neg (by simpa using hlow)]
      exact ih h.2 (by omega)

/-- Pruning leaves records of the newest blocks. -/
theorem Rewinds.prune (below : ℕ) (h : Rewinds P records s stack) :
    Rewinds P (records.filter fun entry => below ≤ entry.1) s stack := by
  induction records generalizing s stack with
  | nil => exact h
  | cons entry records ih =>
    cases stack with
    | nil => exact absurd h id
    | cons outcome older =>
      obtain ⟨hentry, holder⟩ := h
      -- records at or above the bound stay; from the first below it all go
      by_cases hb : below ≤ entry.1
      · rw [List.filter_cons_of_pos (by simpa using hb)]
        exact ⟨hentry, ih holder⟩
      · rw [List.filter_cons_of_neg (by simpa using hb), holder.prune_eq_nil (hentry.2.1 ▸ by omega)]
        exact hentry.2.2.2

end Rewinds

/-- The executor has the results of the stack, and the property holds of it as it is and as it
would be after every undo. -/
structure Stands (P : WorldState → List ChainBlockOutcome → Prop) (X : ChainExecutor)
    (stack : List ChainBlockOutcome) : Prop where
  results : X.Results stack
  rewinds : Rewinds P X.newestFirst X.state stack

section Run

variable {P : WorldState → List ChainBlockOutcome → Prop} {X X' : ChainExecutor}
  {stack : List ChainBlockOutcome}

theorem Stands.now (h : X.Stands P stack) : P X.state stack := h.rewinds.now

/-- A stack without its newest outcome. -/
theorem Results.pop {outcome : ChainBlockOutcome} (h : X.Results (outcome :: stack))
    (hne : stack ≠ []) (hheight : X'.height = X.height - 1)
    (hresults : X'.results = X.results.erase X.height) : X'.Results stack := by
  have hlen : stack.length = X.height := Nat.succ.inj h.length
  have hpos : 0 < stack.length := List.length_pos_iff.mpr hne
  -- below the top the two stacks agree
  have hbelow : ∀ i, i ≠ X.height → (outcome :: stack).reverse[i]? = stack.reverse[i]? := by
    intro i hi
    rw [List.reverse_cons]
    by_cases hlt : i < stack.length
    · rw [List.getElem?_append_left (by rwa [List.length_reverse])]
    · rw [List.getElem?_eq_none (by simp; omega), List.getElem?_eq_none (by simp; omega)]
  refine ⟨by omega, fun i => ?_, fun i o ho => ?_⟩
  · -- the result at the height undone is the one erased
    rw [hresults, Maps.lookup_erase]
    split
    · next hi => rw [List.getElem?_eq_none (by simp; omega)]
    · next hi => rw [h.lookup, hbelow i hi]
  · have hlt := (List.getElem?_eq_some_iff.mp ho).1
    rw [List.length_reverse] at hlt
    exact h.height i o ((hbelow i (by omega)).trans ho)

/-- Undoing the newest block takes its outcome off the stack. -/
theorem Stands.undoOne (h : X.Stands P stack) {expected : BlockHash}
    (hok : X.undoOne expected = (X', .ok ())) :
    ∃ outcome older, stack = outcome :: older ∧ outcome.hash = expected ∧ X'.Stands P older ∧
      X'.parallel = X.parallel ∧ X'.params = X.params := by
  -- a refused undo is no success; the other one pops one outcome
  obtain ⟨-, e, he⟩ | ⟨height, record, records, hnew, hrun⟩ := undoOne_cases X expected
  · rw [he] at hok
    exact absurd (Prod.mk.inj hok).2 (by simp)
  rw [hrun] at hok
  obtain ⟨rfl, -⟩ := Prod.mk.inj hok
  have hrewinds := h.rewinds
  rw [hnew] at hrewinds
  cases stack with
  | nil => exact absurd hrewinds id
  | cons outcome older =>
    obtain ⟨⟨hne, hheight, hhash, -⟩, holder⟩ := hrewinds
    obtain rfl : height = X.height := hheight.trans (Nat.succ.inj h.results.length)
    refine ⟨outcome, older, rfl, hhash.symm, ⟨h.results.pop hne rfl rfl, ?_⟩, rfl, rfl⟩
    unfold newestFirst
    rw [List.reverse_reverse]
    exact holder

/-- **Undoing a list** takes the outcomes of its blocks off the stack. -/
theorem Stands.undoAll {removed : List BlockHash} (h : X.Stands P stack)
    (hok : X.undoAll removed = (X', .ok ())) :
    ∃ top rest, stack = top ++ rest ∧ top.map ChainBlockOutcome.hash = removed ∧
      X'.Stands P rest ∧ X'.parallel = X.parallel ∧ X'.params = X.params := by
  induction removed generalizing X stack with
  | nil =>
    obtain ⟨rfl, -⟩ := Prod.mk.inj hok
    exact ⟨[], stack, rfl, rfl, h, rfl, rfl⟩
  | cons hash removed ih =>
    obtain ⟨X₁, hone, hremoved⟩ := undoAll_cons hok
    obtain ⟨outcome, older, rfl, rfl, h₁, hmode₁, hparams₁⟩ := h.undoOne hone
    obtain ⟨top, rest, rfl, rfl, h₂, hmode₂, hparams₂⟩ := ih h₁ hremoved
    exact ⟨outcome :: top, rest, rfl, rfl, h₂, hmode₂.trans hmode₁, hparams₂.trans hparams₁⟩

/-- **Executing a block** puts its outcome on the stack. -/
theorem Stands.execute (hP : OfAccounts P) (h : X.Stands P stack) {hash : BlockHash}
    {outcome : ChainBlockOutcome} {record : UndoRecord} (hexec : Executed X hash outcome record X')
    (hheight : outcome.height = X.height + 1) (hnow : P X'.state (outcome :: stack)) :
    X'.Stands P (outcome :: stack) := by
  have hlen := h.results.length
  -- the new outcome lies above the old stack
  have hbelow : ∀ i, i ≠ X.height + 1 → (outcome :: stack).reverse[i]? = stack.reverse[i]? := by
    intro i hi
    rw [List.reverse_cons]
    by_cases hlt : i < stack.length
    · rw [List.getElem?_append_left (by rwa [List.length_reverse])]
    · rw [List.getElem?_eq_none (by simp; omega), List.getElem?_eq_none (by simp; omega)]
  have htop : (outcome :: stack).reverse[X.height + 1]? = some outcome := by
    rw [List.reverse_cons, ← hlen, ← List.length_reverse, List.getElem?_concat_length]
  refine ⟨⟨?_, fun i => ?_, fun i o ho => ?_⟩, ?_⟩
  · rw [List.length_cons, hexec.height, hlen]
  · rw [hexec.results, Maps.lookup_insert]
    split
    · next hi => rw [hi, htop]
    · next hi => rw [hbelow i hi, h.results.lookup]
  · by_cases hi : i = X.height + 1
    · rw [hi, htop] at ho
      rw [← Option.some.inj ho, hi, hheight]
    · exact h.results.height i o ((hbelow i hi).symm.trans ho)
  · -- the new record undoes to where the older ones start from
    obtain ⟨below, hrecords⟩ := hexec.newestFirst
    rw [hrecords]
    refine Rewinds.prune below ⟨⟨?_, hlen.symm, hexec.hash_eq.symm, hnow⟩, ?_⟩
    · exact List.length_pos_iff.mp (by omega)
    · exact h.rewinds.congr hP hexec.restores.apply

/-! ### A journal that has not been pruned -/

/-- Nothing has been pruned: there is a record for every height. -/
def Unpruned (X : ChainExecutor) : Prop := X.newestFirst.length = X.height

/-- The newest block of an unpruned executor can be undone. -/
theorem Stands.undoOne_isOk {outcome : ChainBlockOutcome} (h : X.Stands P (outcome :: stack))
    (hne : stack ≠ []) (hfull : X.Unpruned) :
    ∃ X', X.undoOne outcome.hash = (X', .ok ()) ∧ X'.Unpruned := by
  have hlen : stack.length = X.height := Nat.succ.inj h.results.length
  have hpos : 0 < stack.length := List.length_pos_iff.mpr hne
  have hrewinds := h.rewinds
  have hcount : X.newestFirst.length = X.height := hfull
  cases hnew : X.newestFirst with
  | nil =>
    rw [hnew, List.length_nil] at hcount
    omega
  | cons entry records =>
    rw [hnew] at hrewinds hcount
    have hhash : entry.2.1 = outcome.hash := hrewinds.1.2.2.1
    -- the newest record is that of the newest outcome, so the undo is not refused
    obtain ⟨hrefused, -⟩ | ⟨height, record, older, hnew', hrun⟩ := undoOne_cases X outcome.hash
    · exact absurd (by rw [hnew, List.head?_cons, Option.map_some, hhash]) hrefused
    · refine ⟨_, hrun, ?_⟩
      obtain ⟨rfl, rfl⟩ := List.cons.inj (hnew.symm.trans hnew')
      have hheight : height = stack.length := hrewinds.1.2.1
      show records.reverse.reverse.length = height - 1
      rw [List.reverse_reverse, hheight, hlen, ← hcount, List.length_cons, Nat.add_sub_cancel]

/-- Any blocks of an unpruned executor but the oldest can be undone. -/
theorem Stands.undoAll_isOk {top rest : List ChainBlockOutcome} (h : X.Stands P (top ++ rest))
    (hne : rest ≠ []) (hfull : X.Unpruned) :
    ∃ X', X.undoAll (top.map ChainBlockOutcome.hash) = (X', .ok ()) ∧ X'.Unpruned := by
  induction top generalizing X with
  | nil => exact ⟨X, rfl, hfull⟩
  | cons outcome top ih =>
    obtain ⟨X₁, hone, hfull₁⟩ :=
      h.undoOne_isOk (List.append_ne_nil_of_right_ne_nil _ hne) hfull
    obtain ⟨outcome', older, hstack, -, h₁, -⟩ := h.undoOne hone
    obtain ⟨-, rfl⟩ := List.cons.inj hstack
    obtain ⟨X', hrest, hfull'⟩ := ih h₁ hfull₁
    refine ⟨X', ?_, hfull'⟩
    rw [List.map_cons]
    unfold ChainExecutor.undoAll
    rw [hone]
    exact hrest

variable [Evm] [Trie] [FeeRule]

/-- Within the pruning window, executing a block adds its record and prunes none. -/
theorem Unpruned.executeChainBlock (hfull : X.Unpruned) {D : DagStore} {bodies : BodyStore}
    {hash : BlockHash} (hmem : hash ∈ D.headers)
    (hwindow : X.height + 1 ≤ X.params.pruningWindowBlocks) :
    (X.executeChainBlock D bodies hash).1.Unpruned ∧
      (X.executeChainBlock D bodies hash).1.height = X.height + 1 ∧
      (X.executeChainBlock D bodies hash).1.params = X.params := by
  obtain ⟨header, hl⟩ := Maps.mem_iff_exists_lookup.mp hmem
  rw [X.executeChainBlock_of_header bodies hl]
  -- within the window `finish` prunes nothing
  have hnot : ¬ X.params.pruningWindowBlocks < (X.blockCtx hash header).height :=
    Nat.not_lt_of_le hwindow
  unfold finish
  dsimp only
  rw [if_neg hnot]
  refine ⟨?_, rfl, rfl⟩
  have hcount : X.journal.reverse.length = X.height := hfull
  rw [List.length_reverse] at hcount
  show (X.journal ++ [_]).reverse.length = X.height + 1
  rw [List.length_reverse, List.length_append, hcount, List.length_singleton]

/-- Within the pruning window, executing blocks prunes no record. -/
theorem Unpruned.executeAll {D : DagStore} {bodies : BodyStore} {added : List BlockHash}
    (hadded : ∀ hash ∈ added, hash ∈ D.headers) (outcomes : List ChainBlockOutcome)
    (hfull : X.Unpruned) (hwindow : X.height + added.length ≤ X.params.pruningWindowBlocks) :
    (X.executeAll D bodies added outcomes).1.Unpruned := by
  induction added generalizing X outcomes with
  | nil => exact hfull
  | cons hash added ih =>
    rw [List.length_cons] at hwindow
    have hmem := hadded hash List.mem_cons_self
    obtain ⟨hfull₁, hheight₁, hparams₁⟩ := hfull.executeChainBlock hmem (by omega)
    unfold ChainExecutor.executeAll
    obtain ⟨header, hl⟩ := Maps.mem_iff_exists_lookup.mp hmem
    have hrun := X.executeChainBlock_of_header bodies hl
    rw [hrun] at hfull₁ hheight₁ hparams₁ ⊢
    refine ih (fun b hb => hadded b (List.mem_cons_of_mem hash hb)) _ hfull₁ ?_
    rw [hheight₁, hparams₁]
    omega

end Run

end ChainExecutor

end Chainname
