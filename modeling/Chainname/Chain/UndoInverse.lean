import Chainname.Chain.Bookkeeping

/-!
# Undo inverts execution

The undo record of a block is put together in several ways. The sequential path notes the
keys of a change set right before it commits it. A committed round notes the beneficiary as
well, as the fee is credited after the round. A round that falls back builds a record of its
own, against the state in the middle of the block, and it is folded into the block's record.

Each of these steps keeps `Restores`: the record so far takes the state back to the one
before the block. Nothing is assumed of the EVM. `Executes` is any number of blocks executed
on top of each other, in any mode, with the journal pruned or not, and
`undo_inverts_execution` takes them back, newest first.
-/

namespace Chainname

open UndoRecord

section Block

variable [Evm] {params : ChainParams} {ctx : ChainBlockCtx} {gasLimit : ℕ}

/-- One transaction of the sequential path. -/
theorem restores_transactOne {before : WorldState} {st : WorldState × ExecutedBlock}
    (h : Restores st.2.undo before st.1) (item : Address × ChainTx) :
    Restores (transactOne params ctx gasLimit st item).2.undo before
      (transactOne params ctx gasLimit st item).1 := by
  unfold transactOne
  split
  · exact h
  · cases Evm.transact params ctx item.1 item.2 st.1 with
    | none => exact h
    | some out => exact h.commit out.2 (Finset.Subset.refl _)

variable (params ctx gasLimit) in
theorem restores_executeSequentially (s : WorldState) (tagged : List (Address × ChainTx))
    (order : List ℕ) :
    Restores (executeSequentially params ctx gasLimit s tagged order).2.undo s
      (executeSequentially params ctx gasLimit s tagged order).1 := by
  unfold executeSequentially
  -- the loop, from any block whose record restores so far
  have hrun : ∀ (l : List (Address × ChainTx)) (st : WorldState × ExecutedBlock),
      Restores st.2.undo s st.1 →
        Restores (l.foldl (transactOne params ctx gasLimit) st).2.undo s
          (l.foldl (transactOne params ctx gasLimit) st).1 := by
    intro l
    induction l with
    | nil => exact fun _ h => h
    | cons item l ih => exact fun st h => ih _ (restores_transactOne h item)
  exact hrun _ _ (Restores.refl s)

/-- In the middle of a committed round the record restores, and it has the pre-value of
every account that is owed a fee. -/
structure RoundRestores (before : WorldState) (st : RoundState) : Prop where
  restores : Restores st.block.undo before st.state
  credited : ∀ credit ∈ st.credited, credit.1 ∈ st.block.undo

omit [Evm] in
/-- One speculation of a committed round. -/
theorem RoundRestores.commitOne {before : WorldState} {st : RoundState}
    (h : RoundRestores before st) (item : (Address × ChainTx) × Speculation) :
    RoundRestores before (commitOne gasLimit st item) := by
  unfold Chainname.commitOne
  split
  · exact ⟨h.restores, h.credited⟩
  · cases item.2.result with
    | none => exact ⟨h.restores, h.credited⟩
    | some result =>
      -- the change set and the beneficiary are noted in one state, before the commit
      have hnote : noteAll (noteAll st.block.undo item.2.diff.keys st.state) {item.1.1} st.state
          = noteAll st.block.undo (item.2.diff.keys ∪ {item.1.1}) st.state :=
        noteAll_noteAll _ _ _ _
      refine ⟨?_, fun credit hcredit => ?_⟩
      · show Restores (noteAll (noteAll _ _ _) _ _) before _
        rw [hnote]
        exact h.restores.commit item.2.diff Finset.subset_union_left
      · show credit.1 ∈ noteAll (noteAll _ _ _) _ _
        rw [hnote, mem_noteAll]
        obtain hold | hnew := List.mem_append.mp hcredit
        · exact Or.inl (h.credited credit hold)
        · rw [List.mem_singleton.mp hnew]
          exact Or.inr (Finset.mem_union_right _ (Finset.mem_singleton_self _))

omit [Evm] in
/-- A late fee goes to an account whose pre-value is recorded. -/
theorem restores_creditOne {record : UndoRecord} {before s : WorldState}
    (h : Restores record before s) {credit : Address × B256} (hmem : credit.1 ∈ record) :
    Restores record before (creditOne s credit) := by
  unfold creditOne
  split
  · exact h
  · refine h.overwrite hmem fun b hb => ?_
    rw [WorldState.lookup_insertAccount, if_neg hb]

omit [Evm] in
/-- A committed round. -/
theorem restores_commitRound {before s : WorldState} {block : ExecutedBlock}
    (h : Restores block.undo before s) (round : List ((Address × ChainTx) × Speculation)) :
    Restores (commitRound gasLimit s block round).2.undo before
      (commitRound gasLimit s block round).1 := by
  -- first the commits of the round, then the credits to the beneficiaries
  have hcommit : ∀ (l : List ((Address × ChainTx) × Speculation)) (st : RoundState),
      RoundRestores before st → RoundRestores before (l.foldl (commitOne gasLimit) st) := by
    intro l
    induction l with
    | nil => exact fun _ h => h
    | cons item l ih => exact fun st h => ih _ (h.commitOne item)
  -- a credited account is in the record already, so crediting it changes nothing there
  have hcredit : ∀ (l : List (Address × B256)) (record : UndoRecord) (s : WorldState),
      (∀ credit ∈ l, credit.1 ∈ record) → Restores record before s →
        Restores record before (l.foldl creditOne s) := by
    intro l record
    induction l with
    | nil => exact fun _ _ h => h
    | cons credit l ih =>
      exact fun s hall h => ih _ (fun c hc => hall c (List.mem_cons_of_mem _ hc))
        (restores_creditOne h (hall credit List.mem_cons_self))
  have hround := hcommit round ⟨s, block, []⟩ ⟨h, fun _ hc => absurd hc List.not_mem_nil⟩
  exact hcredit _ _ _ hround.credited hround.restores

/-- A round, committed or fallen back. -/
theorem restores_executeLayer {before : WorldState} {st : LayerState}
    (h : Restores st.block.undo before st.state) (tagged : List (Address × ChainTx))
    (layer : List ℕ) :
    Restores (executeLayer params ctx gasLimit tagged st layer).block.undo before
      (executeLayer params ctx gasLimit tagged st layer).state := by
  unfold executeLayer
  dsimp only
  split
  · exact h.merge (restores_executeSequentially params ctx gasLimit st.state tagged layer)
  · exact restores_commitRound h _

variable (params ctx gasLimit) in
theorem restores_executeRoundsParallel (s : WorldState) (tagged : List (Address × ChainTx))
    (order : List ℕ) (access : List TxAccessSet) :
    Restores (executeRoundsParallel params ctx gasLimit s tagged order access).block.undo s
      (executeRoundsParallel params ctx gasLimit s tagged order access).state := by
  unfold executeRoundsParallel
  have hrun : ∀ (l : List (List ℕ)) (st : LayerState), Restores st.block.undo s st.state →
      Restores (l.foldl (executeLayer params ctx gasLimit tagged) st).block.undo s
        (l.foldl (executeLayer params ctx gasLimit tagged) st).state := by
    intro l
    induction l with
    | nil => exact fun _ h => h
    | cons layer l ih => exact fun st h => ih _ (restores_executeLayer h tagged layer)
  exact hrun _ _ (Restores.refl s)

end Block

namespace ChainExecutor

/-- The transactions of a block, in either mode. -/
theorem restores_runTransactions [Evm] (X : ChainExecutor) (tagged : List (Address × ChainTx))
    (ctx : ChainBlockCtx) :
    Restores (X.runTransactions tagged ctx).block.undo X.state
      (X.runTransactions tagged ctx).state := by
  unfold runTransactions
  dsimp only
  split
  · exact restores_executeRoundsParallel _ _ _ _ _ _ _
  · exact restores_executeSequentially _ _ _ _ _ _

variable [Evm] [Trie] [FeeRule]

omit [Evm] in
/-- Pruning never reaches the record of the block that was just executed. -/
theorem finish_journal (X : ChainExecutor) (hash : BlockHash) (header : Header)
    (ctx : ChainBlockCtx) (st : LayerState) : ∃ below ≤ ctx.height,
      (X.finish hash header ctx st).1.journal
        = (X.journal ++ [(ctx.height, hash, st.block.undo)]).filter fun entry =>
          below ≤ entry.1 := by
  unfold finish
  dsimp only
  split
  · exact ⟨_, Nat.sub_le _ _, rfl⟩
  · refine ⟨0, Nat.zero_le _, ?_⟩
    simp only [Nat.zero_le, decide_true, List.filter_true]

/-- **One block.** Executing a block pushes its record on the journal, and the record takes
the accounts back. -/
theorem executeChainBlock_restores {X X' : ChainExecutor} {D : DagStore} {bodies : BodyStore}
    {hash : BlockHash} {outcome : ChainBlockOutcome}
    (hok : X.executeChainBlock D bodies hash = (X', .ok outcome)) :
    ∃ record, Restores record X.state X'.state ∧ ∃ below, X'.newestFirst
      = (X.height + 1, hash, record) :: X.newestFirst.filter fun entry => below ≤ entry.1 := by
  cases hl : D.headers.lookup hash with
  | none =>
    unfold executeChainBlock at hok
    rw [hl] at hok
    exact absurd (Prod.mk.inj hok).2 (by simp)
  | some header =>
    rw [X.executeChainBlock_of_header bodies hl] at hok
    obtain ⟨rfl, -⟩ := Prod.mk.inj hok
    set ctx := X.blockCtx hash header
    set st := X.runTransactions (taggedTransactions D bodies hash) ctx
    refine ⟨st.block.undo, ?_, ?_⟩
    · obtain ⟨below, hfinish⟩ := X.finish_eq hash header ctx st
      rw [hfinish]
      exact X.restores_runTransactions _ _
    · obtain ⟨below, hbelow, hjournal⟩ := X.finish_journal hash header ctx st
      refine ⟨below, ?_⟩
      unfold newestFirst
      rw [hjournal, ← List.filter_reverse, List.reverse_append]
      exact List.filter_cons_of_pos (decide_eq_true hbelow)

/-! ### A stack of blocks -/

/-- `X'` comes from `X` by executing blocks, in any mode and whatever is pruned on the way.
The entries are those the blocks pushed on the journal, newest first. -/
inductive Executes (X : ChainExecutor) :
    List (ℕ × BlockHash × UndoRecord) → ChainExecutor → Prop
  | start : Executes X [] X
  | setParallel {entries : List (ℕ × BlockHash × UndoRecord)} {X' : ChainExecutor}
      (h : Executes X entries X') (parallel : Bool) :
      Executes X entries (X'.setParallel parallel)
  | pruneJournal {entries : List (ℕ × BlockHash × UndoRecord)} {X' : ChainExecutor}
      (h : Executes X entries X') (belowHeight : ℕ) :
      Executes X entries (X'.pruneJournal belowHeight)
  | block {entries : List (ℕ × BlockHash × UndoRecord)} {X' X'' : ChainExecutor}
      (h : Executes X entries X') {D : DagStore} {bodies : BodyStore} {hash : BlockHash}
      {outcome : ChainBlockOutcome}
      (hok : X'.executeChainBlock D bodies hash = (X'', .ok outcome))
      {entry : ℕ × BlockHash × UndoRecord} (hentry : X''.newestFirst.head? = some entry) :
      Executes X (entry :: entries) X''

/-- Applying the records, newest first. -/
def rewind (entries : List (ℕ × BlockHash × UndoRecord)) (s : WorldState) : WorldState :=
  entries.foldl (fun s entry => UndoRecord.apply entry.2.2 s) s

omit [Evm] [Trie] [FeeRule] in
theorem rewind_congr (entries : List (ℕ × BlockHash × UndoRecord)) {s S : WorldState}
    (h : S.accounts = s.accounts) : (rewind entries S).accounts = (rewind entries s).accounts := by
  unfold rewind
  induction entries generalizing s S with
  | nil => exact h
  | cons entry entries ih =>
    refine ih (Finmap.ext_lookup fun a => ?_)
    rw [UndoRecord.lookup_apply, UndoRecord.lookup_apply, h]

/-- Applying the records of a stack of blocks, newest first, gives back the accounts. -/
theorem Executes.rewind_accounts {X X' : ChainExecutor}
    {entries : List (ℕ × BlockHash × UndoRecord)} (h : Executes X entries X') :
    (rewind entries X'.state).accounts = X.state.accounts := by
  induction h with
  | start => rfl
  | setParallel _ _ ih => exact ih
  | pruneJournal _ _ ih => exact ih
  | @block entries X' X'' _ _ _ _ _ hok entry hentry ih =>
    obtain ⟨record, hrestores, below, hnewest⟩ := executeChainBlock_restores hok
    rw [hnewest] at hentry
    obtain rfl := Option.some.inj hentry
    -- the newest record gives back the state the block was executed on
    exact (rewind_congr entries hrestores.apply).trans ih

omit [Evm] [Trie] [FeeRule] in
/-- A journal that still has the records lets the blocks be undone, and this applies them. -/
theorem undoAll_of_newestFirst {X : ChainExecutor}
    {entries rest : List (ℕ × BlockHash × UndoRecord)} (h : X.newestFirst = entries ++ rest) :
    ∃ X', X.undoAll (entries.map fun entry => entry.2.1) = (X', .ok ()) ∧
      X'.state = rewind entries X.state ∧ X'.newestFirst = rest := by
  induction entries generalizing X with
  | nil => exact ⟨X, rfl, rfl, h⟩
  | cons entry entries ih =>
    -- the newest record is the one asked for
    obtain ⟨hne, -⟩ | ⟨height, record, older, hnew, hrun⟩ := undoOne_cases X entry.2.1
    · rw [h] at hne
      exact absurd rfl hne
    · rw [h] at hnew
      obtain ⟨hentry, rfl⟩ := List.cons.inj hnew
      rw [hentry] at hrun ⊢
      obtain ⟨X', hall, hstate, hrest⟩ := ih (X := { X with
        state := UndoRecord.apply record X.state
        results := X.results.erase height
        journal := (entries ++ rest).reverse
        height := height - 1
        tip := tipAfterUndo (entries ++ rest).reverse (X.results.erase height) entry.2.1 })
        (List.reverse_reverse _)
      refine ⟨X', ?_, hstate, hrest⟩
      rw [List.map_cons]
      unfold undoAll
      rw [hrun]
      exact hall

omit [Evm] [Trie] [FeeRule] in
theorem Stacked.prune_prefix {f : ℕ → Option BlockHash} (below : ℕ) {height : ℕ}
    {l : List (ℕ × BlockHash × UndoRecord)} (h : Stacked f height l) :
    (l.filter fun entry => below ≤ entry.1) <+: l := by
  induction l generalizing height with
  | nil => exact List.nil_prefix
  | cons entry older ih =>
    by_cases hb : below ≤ entry.1
    · rw [List.filter_cons_of_pos (by simpa using hb)]
      exact (List.prefix_cons_inj entry).mpr (ih h.2.2.2)
    · -- what is older is lower still
      rw [List.filter_eq_nil_iff.mpr]
      · exact List.nil_prefix
      · intro e he
        have hle := h.le e he
        have hfirst := h.1
        simp only [decide_eq_true_eq]
        omega

/-- What is left of the journal is the newest part of what was pushed on it. -/
theorem Executes.newestFirst_prefix {X X' : ChainExecutor}
    {entries : List (ℕ × BlockHash × UndoRecord)} (h : Executes X entries X') (hX : Booked X) :
    Booked X' ∧ X'.newestFirst <+: entries ++ X.newestFirst := by
  -- a run of executions, by its last event
  induction h with
  | start => exact ⟨hX, List.prefix_rfl⟩
  | setParallel _ _ ih => exact ⟨⟨ih.1.mem_results, ih.1.stacked⟩, ih.2⟩
  | @pruneJournal entries X' _ below ih =>
    refine ⟨ih.1.pruneJournal below, List.IsPrefix.trans ?_ ih.2⟩
    have hrev : (X'.pruneJournal below).newestFirst
        = X'.newestFirst.filter fun entry => below ≤ entry.1 := List.filter_reverse.symm
    rw [hrev]
    exact ih.1.stacked.prune_prefix below
  -- the new record on top, the pruned rest below
  | @block entries X' X'' _ D bodies hash _ hok entry hentry ih =>
    have hbooked := ih.1.executeChainBlock D bodies hash
    rw [hok] at hbooked
    refine ⟨hbooked.1, ?_⟩
    obtain ⟨record, -, below, hnewest⟩ := executeChainBlock_restores hok
    rw [hnewest] at hentry ⊢
    obtain rfl := Option.some.inj hentry
    exact (List.prefix_cons_inj _).mpr ((ih.1.stacked.prune_prefix below).trans ih.2)

/-- What undoing gives back, from an executor on. -/
structure UndoInverts (X : ChainExecutor) : Prop where
  /-- Executing a block pushes a record. Applied to the state afterwards, it gives back the
  accounts from before the block. -/
  block : ∀ {D : DagStore} {bodies : BodyStore} {hash : BlockHash} {X' : ChainExecutor}
    {outcome : ChainBlockOutcome}, X.executeChainBlock D bodies hash = (X', .ok outcome) →
      ∃ record, X'.newestFirst.head? = some (X.height + 1, hash, record) ∧
        (UndoRecord.apply record X'.state).accounts = X.state.accounts
  /-- The records of a stack of blocks, applied newest first, give back the accounts from
  before the oldest of them. -/
  stack : ∀ {entries : List (ℕ × BlockHash × UndoRecord)} {X' : ChainExecutor},
    Executes X entries X' → (rewind entries X'.state).accounts = X.state.accounts
  /-- As long as the journal holds the records, the undo succeeds. -/
  undoable : ∀ {entries : List (ℕ × BlockHash × UndoRecord)} {X' : ChainExecutor},
    Executes X entries X' → entries <+: X'.newestFirst →
      ∃ X'', X'.undoAll (entries.map fun entry => entry.2.1) = (X'', .ok ()) ∧
        X''.state.accounts = X.state.accounts
  /-- When the undo of an executor that has kept its books succeeds, it gives back the
  accounts, whatever was pruned. -/
  undone : Booked X → ∀ {entries : List (ℕ × BlockHash × UndoRecord)} {X' X'' : ChainExecutor},
    Executes X entries X' → X'.undoAll (entries.map fun entry => entry.2.1) = (X'', .ok ()) →
      X''.state.accounts = X.state.accounts

/-- **Undo inverts execution**, for every EVM, in either mode. -/
theorem undo_inverts_execution (X : ChainExecutor) : UndoInverts X := by
  have hundoable : ∀ {entries : List (ℕ × BlockHash × UndoRecord)} {X' : ChainExecutor},
      Executes X entries X' → entries <+: X'.newestFirst →
        ∃ X'', X'.undoAll (entries.map fun entry => entry.2.1) = (X'', .ok ()) ∧
          X''.state.accounts = X.state.accounts := by
    rintro entries X' h ⟨rest, hrest⟩
    obtain ⟨X'', hall, hstate, -⟩ := undoAll_of_newestFirst hrest.symm
    exact ⟨X'', hall, hstate ▸ h.rewind_accounts⟩
  refine ⟨fun hok => ?_, fun h => h.rewind_accounts, hundoable, fun hX {entries X' X''} h hok => ?_⟩
  · obtain ⟨record, hrestores, below, hnewest⟩ := executeChainBlock_restores hok
    exact ⟨record, by rw [hnewest]; rfl, hrestores.apply⟩
  · obtain ⟨hbooked, hprefix⟩ := h.newestFirst_prefix hX
    obtain ⟨popped, hundone⟩ := hbooked.undoAll hok
    -- what was popped are the newest records, and there are as many of them as entries
    have hpopped : popped <+: X'.newestFirst := ⟨_, hundone.newestFirst.symm⟩
    have hlength : popped.length = entries.length := by
      rw [← List.length_map fun entry => entry.2.1, hundone.hashes, List.length_map]
    have heq : popped = entries :=
      (List.prefix_of_prefix_length_le (hpopped.trans hprefix) (List.prefix_append _ _)
        hlength.le).eq_of_length hlength
    obtain ⟨X₁, hall, haccounts⟩ := hundoable h (heq ▸ hpopped)
    obtain ⟨rfl, -⟩ := Prod.mk.inj (hall.symm.trans hok)
    exact haccounts

end ChainExecutor

end Chainname
