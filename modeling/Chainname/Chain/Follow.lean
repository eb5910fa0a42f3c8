import Chainname.Chain.Reorg
import Chainname.Chain.Replay
import Chainname.Ghostdag.Growth

/-!
# An executor that follows the selected chain

`onChain` is the executor that executes a chain from its start and never undoes anything.
`Follows` says that an executor is like it, and that it can get back: its journal holds, for
the newest blocks of the chain, records that take the accounts of one block back to those of
the block before, and the code of every account it might get back to is still registered.

Undoing the newest block leaves an executor that follows the rest of the chain, executing a
block one that follows the longer chain. Neither looks at how the executor got where it is.
-/

namespace Chainname

namespace ChainExecutor

section Follow

variable [Evm] [Trie] [FeeRule]

/-- The executor that executes a chain (newest block first) from `start`. -/
def onChain (start : ChainExecutor) (D : DagStore) (bodies : BodyStore) :
    List BlockHash → ChainExecutor
  | [] => start
  | hash :: older => ((onChain start D bodies older).executeChainBlock D bodies hash).1

/-- Records, newest first, that undo the newest blocks of a chain one after the other. -/
def Undoes (start : ChainExecutor) (D : DagStore) (bodies : BodyStore) :
    List (ℕ × BlockHash × UndoRecord) → List BlockHash → Prop
  | [], _ => True
  | _ :: _, [] => False
  | entry :: records, hash :: older =>
    entry.1 = older.length + 1 ∧ entry.2.1 = hash ∧
      UndoRecord.Restores entry.2.2 (onChain start D bodies older).state
        (onChain start D bodies (hash :: older)).state ∧
      Undoes start D bodies records older

/-- The executor is like the one that executes `chain` from `start`, and can undo what its
journal holds. -/
structure Follows (codeOf : B256 → Bytecode) (start : ChainExecutor) (D : DagStore)
    (bodies : BodyStore) (X : ChainExecutor) (chain : List BlockHash) : Prop where
  like : Like codeOf X (onChain start D bodies chain)
  journal : Undoes start D bodies X.newestFirst chain
  /-- The code of the accounts at every earlier block is registered. -/
  held : ∀ older, older <:+ chain → ∀ a account,
    (onChain start D bodies older).state.account a = some account →
    codeOf account.info.codeHash ≠ [] → account.info.codeHash ∈ X.state.code

/-- A start: an executor at height zero with its books in order, in sequential mode, whose
code is well registered. -/
structure Start (codeOf : B256 → Bytecode) (start : ChainExecutor) : Prop where
  booked : Booked start
  height : start.height = 0
  journal : start.journal = []
  parallel : start.parallel = false
  coded : WellCoded codeOf start.state

variable {codeOf : B256 → Bytecode} {start : ChainExecutor}

omit [Evm] in
theorem start_new {params : ChainParams} {genesisState : WorldState} (genesisHash : BlockHash)
    (h : WellCoded codeOf genesisState) : Start codeOf (new params genesisState genesisHash) :=
  ⟨(bookkeeping_new params genesisState genesisHash).toBooked, rfl, rfl, rfl, h⟩

/-! ### The reference -/

section Reference

variable (hcode : CodeByHash codeOf) (hstart : Start codeOf start) {D : DagStore}
  (bodies : BodyStore)

include hcode hstart

/-- The reference executor is at the height of its chain, with well registered code. -/
theorem onChain_facts {chain : List BlockHash} (hknown : ∀ hash ∈ chain, hash ∈ D.headers) :
    (onChain start D bodies chain).height = chain.length ∧
      Booked (onChain start D bodies chain) ∧
      Like codeOf (onChain start D bodies chain) (onChain start D bodies chain) := by
  -- the chain tip first: its last block is executed on what the rest leaves
  induction chain with
  | nil =>
    exact ⟨hstart.height, hstart.booked, rfl, hstart.parallel, hstart.parallel, rfl, rfl, rfl, rfl,
      hstart.coded, hstart.coded⟩
  | cons hash older ih =>
    obtain ⟨hheight, hbooked, hlike⟩ := ih fun h hm => hknown h (List.mem_cons_of_mem hash hm)
    obtain ⟨header, hl⟩ := Maps.mem_iff_exists_lookup.mp (hknown hash List.mem_cons_self)
    obtain ⟨outcome, record, X', Y', hX, hY, hlike', hexec, -⟩ :=
      hlike.execute hcode hl hl (Eq.refl (taggedTransactions D bodies hash))
    obtain rfl : X' = Y' := (Prod.mk.inj (hX.symm.trans hY)).1
    have hstep : onChain start D bodies (hash :: older) = X' := congrArg Prod.fst hX
    refine ⟨?_, (hbooked.executeChainBlock D bodies hash).1, ?_⟩
    · rw [hstep, hexec.height, hheight]
      rfl
    · rw [hstep]
      exact hlike'

/-- One block of the reference. -/
theorem onChain_executed {hash : BlockHash} {older : List BlockHash}
    (hknown : ∀ h ∈ hash :: older, h ∈ D.headers) :
    ∃ outcome record, Executed (onChain start D bodies older) hash outcome record
      (onChain start D bodies (hash :: older)) := by
  obtain ⟨-, -, hlike⟩ := onChain_facts hcode hstart bodies
    fun h hm => hknown h (List.mem_cons_of_mem hash hm)
  obtain ⟨header, hl⟩ := Maps.mem_iff_exists_lookup.mp (hknown hash List.mem_cons_self)
  obtain ⟨outcome, record, X', Y', hX, -, -, hexec, -⟩ :=
    hlike.execute hcode hl hl (Eq.refl (taggedTransactions D bodies hash))
  have hstep : onChain start D bodies (hash :: older) = X' := congrArg Prod.fst hX
  exact ⟨outcome, record, hstep ▸ hexec⟩

/-- The reference follows its chain. -/
theorem follows_start : Follows codeOf start D bodies start [] := by
  refine ⟨(onChain_facts hcode hstart bodies
    fun _ h => absurd h List.not_mem_nil).2.2, ?_, ?_⟩
  · show Undoes start D bodies start.journal.reverse []
    rw [hstart.journal]
    trivial
  · intro older holder a account haccount hne
    rw [List.suffix_nil.mp holder] at haccount
    exact hstart.coded.held a account haccount hne

end Reference

/-! ### Undoing a block -/

omit [Evm] [Trie] [FeeRule] in
/-- Erasing the height an insertion added gives the results before it. -/
theorem erase_insert_results {results : Map ℕ ChainBlockOutcome} {height : ℕ}
    (h : height ∉ results) (outcome : ChainBlockOutcome) :
    (results.insert height outcome).erase height = results := by
  refine Finmap.ext_lookup fun k => ?_
  rw [Maps.lookup_erase, Maps.lookup_insert]
  by_cases hk : k = height
  · rw [if_pos hk, hk, Finmap.lookup_eq_none.mpr h]
  · rw [if_neg hk, if_neg hk]

section Step

variable (hcode : CodeByHash codeOf) (hstart : Start codeOf start) {D : DagStore}
  {bodies : BodyStore}

include hcode hstart

/-- **Undoing a block** of the chain leaves an executor that follows the rest of it. -/
theorem Follows.undoOne {X X' : ChainExecutor} {chain : List BlockHash} {expected : BlockHash}
    (hknown : ∀ h ∈ chain, h ∈ D.headers) (h : Follows codeOf start D bodies X chain)
    (hok : X.undoOne expected = (X', .ok ())) :
    ∃ older, chain = expected :: older ∧ Follows codeOf start D bodies X' older := by
  obtain ⟨-, e, he⟩ | ⟨height, record, records, hnew, hrun⟩ := undoOne_cases X expected
  · rw [he] at hok
    exact absurd (Prod.mk.inj hok).2 (by simp)
  rw [hrun] at hok
  obtain ⟨rfl, -⟩ := Prod.mk.inj hok
  have hjournal := h.journal
  rw [hnew] at hjournal
  cases chain with
  | nil => exact absurd hjournal id
  | cons hash older =>
    obtain ⟨hheight, hhash, hrestores, hrest⟩ := hjournal
    dsimp only at hheight hhash hrestores
    have hknown' : ∀ h ∈ older, h ∈ D.headers := fun k hk =>
      hknown k (List.mem_cons_of_mem hash hk)
    -- the reference executor without the block, and how it differs from the one with it
    obtain ⟨hheightOlder, hbookedOlder, hlikeOlder⟩ :=
      onChain_facts hcode hstart bodies hknown'
    obtain ⟨outcome, record', hexec⟩ := onChain_executed hcode hstart bodies hknown
    refine ⟨older, by rw [← hhash], ⟨?_, ?_, ?_, ?_, ?_, ?_⟩, ?_, ?_⟩
    · exact hexec.params.symm.trans h.like.params
    · exact h.like.left
    · exact hlikeOlder.right
    · show (onChain start D bodies older).height = height - 1
      rw [hheightOlder, hheight]
      rfl
    · -- the popped height is the one the reference added last
      show (onChain start D bodies older).results = X.results.erase height
      have hadded := h.like.results.symm.trans hexec.results
      rw [hadded, hheight, hheightOlder, erase_insert_results]
      rw [hbookedOlder.mem_results, hheightOlder]
      omega
    · -- the record takes the accounts back
      obtain ⟨hcodeFrame, hhashFrame⟩ := UndoRecord.apply_frame record X.state
      have haccounts : (UndoRecord.apply record X.state).accounts
          = (onChain start D bodies older).state.accounts := by
        refine UndoRecord.Restores.apply fun a => ?_
        rw [← h.like.view.accounts]
        exact hrestores a
      refine ⟨haccounts.symm, ?_, ⟨?_, ?_⟩, hlikeOlder.view.right⟩
      · show (onChain start D bodies older).state.blockHashes
          = (UndoRecord.apply record X.state).blockHashes
        rw [hhashFrame, ← hexec.blockHashes]
        exact h.like.view.blockHashes
      · show Canonical codeOf (UndoRecord.apply record X.state).code
        rw [hcodeFrame]
        exact h.like.view.left.canonical
      · intro a account haccount hne
        show account.info.codeHash ∈ (UndoRecord.apply record X.state).code
        rw [hcodeFrame]
        refine h.held older (List.suffix_cons hash older) a account ?_ hne
        rw [← haccount]
        show (onChain start D bodies older).state.accounts.lookup a
          = (UndoRecord.apply record X.state).accounts.lookup a
        rw [haccounts]
    · show Undoes start D bodies records.reverse.reverse older
      rw [List.reverse_reverse]
      exact hrest
    · intro earlier hearlier a account haccount hne
      show account.info.codeHash ∈ (UndoRecord.apply record X.state).code
      rw [(UndoRecord.apply_frame record X.state).1]
      exact h.held earlier (hearlier.trans (List.suffix_cons hash older)) a account haccount hne

/-- Undoing a list of blocks. -/
theorem Follows.undoAll {removed : List BlockHash} : ∀ {X X' : ChainExecutor}
    {chain : List BlockHash}, (∀ h ∈ chain, h ∈ D.headers) →
    Follows codeOf start D bodies X chain → X.undoAll removed = (X', .ok ()) →
    ∃ older, chain = removed ++ older ∧ Follows codeOf start D bodies X' older := by
  -- each block undone is the newest of the chain followed
  induction removed with
  | nil =>
    intro X X' chain _ h hok
    obtain ⟨rfl, -⟩ := Prod.mk.inj hok
    exact ⟨chain, rfl, h⟩
  | cons hash removed ih =>
    intro X X' chain hknown h hok
    obtain ⟨X₁, hone, hremoved⟩ := undoAll_cons hok
    obtain ⟨older, rfl, h₁⟩ := h.undoOne hcode hstart hknown hone
    obtain ⟨rest, rfl, h₂⟩ := ih (fun k hk => hknown k (List.mem_cons_of_mem hash hk)) h₁ hremoved
    exact ⟨rest, rfl, h₂⟩

/-! ### Executing a block -/

omit hcode hstart in
/-- Records of a chain that ends below the bound are all pruned. -/
theorem Undoes.prune_eq_nil {below : ℕ} {records : List (ℕ × BlockHash × UndoRecord)} :
    ∀ {chain : List BlockHash}, Undoes start D bodies records chain → chain.length < below →
      (records.filter fun entry => below ≤ entry.1) = [] := by
  induction records with
  | nil => exact fun _ _ => rfl
  | cons entry records ih =>
    intro chain h hlen
    cases chain with
    | nil => exact absurd h id
    | cons hash older =>
      rw [List.length_cons] at hlen
      have hlow : ¬ below ≤ entry.1 := by
        rw [h.1]
        omega
      rw [List.filter_cons_of_neg (by simpa using hlow)]
      exact ih h.2.2.2 (by omega)

omit hcode hstart in
/-- Pruning leaves records of the newest blocks. -/
theorem Undoes.prune (below : ℕ) {records : List (ℕ × BlockHash × UndoRecord)} :
    ∀ {chain : List BlockHash}, Undoes start D bodies records chain →
      Undoes start D bodies (records.filter fun entry => below ≤ entry.1) chain := by
  induction records with
  | nil => exact fun h => h
  | cons entry records ih =>
    intro chain h
    cases chain with
    | nil => exact absurd h id
    | cons hash older =>
      obtain ⟨hheight, hhash, hrestores, hrest⟩ := h
      by_cases hb : below ≤ entry.1
      · rw [List.filter_cons_of_pos (by simpa using hb)]
        exact ⟨hheight, hhash, hrestores, ih hrest⟩
      · -- the older records are older still, so nothing is left
        rw [List.filter_cons_of_neg (by simpa using hb), hrest.prune_eq_nil (by omega)]
        trivial

/-- **Executing a block** whose transactions are those of the reference leaves an executor
that follows the longer chain, with the block as its tip. -/
theorem Follows.execute {X : ChainExecutor} {chain : List BlockHash} {hash : BlockHash}
    {bodies' : BodyStore} (hknown : ∀ h ∈ hash :: chain, h ∈ D.headers)
    (h : Follows codeOf start D bodies X chain)
    (htagged : taggedTransactions D bodies' hash = taggedTransactions D bodies hash) :
    ∃ X' outcome, X.executeChainBlock D bodies' hash = (X', .ok outcome) ∧
      Follows codeOf start D bodies X' (hash :: chain) ∧ X'.tip = hash := by
  obtain ⟨header, hl⟩ := Maps.mem_iff_exists_lookup.mp (hknown hash List.mem_cons_self)
  have hknown' : ∀ h ∈ chain, h ∈ D.headers := fun k hk =>
    hknown k (List.mem_cons_of_mem hash hk)
  obtain ⟨outcome, record, X', Y', hX, hY, hlike, hexec, -⟩ := h.like.execute hcode hl hl htagged.symm
  have hstep : onChain start D bodies (hash :: chain) = Y' := congrArg Prod.fst hY
  refine ⟨X', outcome, hX, ⟨hstep ▸ hlike, ?_, ?_⟩, hexec.tip⟩
  · -- the journal gains the record of `hash`, and pruning takes only the oldest
    obtain ⟨below, hrecords⟩ := hexec.newestFirst
    rw [hrecords]
    refine Undoes.prune below ⟨?_, rfl, fun a => ?_, h.journal⟩
    · show X.height + 1 = chain.length + 1
      rw [← h.like.height, (onChain_facts hcode hstart bodies hknown').1]
    · show _ = (onChain start D bodies chain).state.accounts.lookup a
      rw [hstep, hlike.view.accounts, h.like.view.accounts]
      exact hexec.restores a
  · -- code held for the accounts of an earlier point of the chain
    intro older holder a account haccount hne
    obtain rfl | hsuffix := List.suffix_cons_iff.mp holder
    · -- the new accounts
      refine hlike.view.left.held a account ?_ hne
      rw [← haccount, hstep]
      exact congrArg (fun accounts => Finmap.lookup a accounts) hlike.view.accounts.symm
    · exact hexec.code _ (h.held older hsuffix a account haccount hne)

/-- Executing a list of blocks, oldest first. -/
theorem Follows.executeAll {bodies' : BodyStore} {added : List BlockHash} :
    ∀ {X : ChainExecutor} {chain : List BlockHash} (outcomes : List ChainBlockOutcome),
    (∀ h ∈ added.reverse ++ chain, h ∈ D.headers) →
    Follows codeOf start D bodies X chain →
    (∀ hash ∈ added, taggedTransactions D bodies' hash = taggedTransactions D bodies hash) →
    Follows codeOf start D bodies (X.executeAll D bodies' added outcomes).1
        (added.reverse ++ chain) ∧
      (X.executeAll D bodies' added outcomes).2.isOk = true ∧
      (X.executeAll D bodies' added outcomes).1.tip = (added.getLast?).getD X.tip := by
  -- block by block; the chain followed grows at its front
  induction added with
  | nil => exact fun _ _ h _ => ⟨h, rfl, rfl⟩
  | cons hash added ih =>
    intro X chain outcomes hknown h htagged
    rw [List.reverse_cons, List.append_assoc] at hknown
    obtain ⟨X', outcome, hX, h', htip⟩ := h.execute hcode hstart
      (fun k hk => hknown k (List.mem_append_right _ hk)) (htagged hash List.mem_cons_self)
    obtain ⟨hfollows, hok, htip'⟩ := ih (outcomes ++ [outcome]) hknown h' fun k hk =>
      htagged k (List.mem_cons_of_mem hash hk)
    unfold ChainExecutor.executeAll
    rw [hX, List.reverse_cons, List.append_assoc]
    refine ⟨hfollows, hok, htip'.trans ?_⟩
    rw [List.getLast?_cons, Option.getD_some, htip]

end Step

end Follow

end ChainExecutor

end Chainname
