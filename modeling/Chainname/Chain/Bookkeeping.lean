import Chainname.Chain.Executor
import Chainname.Library.Runs

/-!
# The executor's bookkeeping

The executor keeps results by height, a journal of undo records, a height and a tip, and
updates them in different places. `Booked` says how the first three fit together: results
for exactly the heights up to the current one, and a journal that, read newest first, runs
down from the current height and names the recorded blocks. Every call keeps it, also one
that fails half-way.

The tip is another matter. Executing sets it to the block executed, and an undo to the
newest record left in the journal, or, when none is left, to the block recorded at height
zero. With a pruned journal that is the wrong block unless height zero is where the undo
arrived. `bookkeeping_iff` finds this to be the only way the bookkeeping can go wrong.
-/

namespace Chainname

namespace ChainExecutor

/-- The hash recorded for a height. -/
def hashAt (X : ChainExecutor) (height : ℕ) : Option BlockHash :=
  (X.results.lookup height).map ChainBlockOutcome.hash

/-- The journal, newest record first. -/
def newestFirst (X : ChainExecutor) : List (ℕ × BlockHash × UndoRecord) := X.journal.reverse

/-- Records, newest first, that run down from `height` and carry the recorded hashes. -/
def Stacked (hashAt : ℕ → Option BlockHash) : ℕ → List (ℕ × BlockHash × UndoRecord) → Prop
  | _, [] => True
  | height, entry :: older =>
    entry.1 = height ∧ 0 < height ∧ hashAt height = some entry.2.1 ∧
      Stacked hashAt (height - 1) older

/-- Results, height and journal fit together. -/
structure Booked (X : ChainExecutor) : Prop where
  mem_results : ∀ h, h ∈ X.results ↔ h ≤ X.height
  stacked : Stacked X.hashAt X.height X.newestFirst

/-- The bookkeeping invariant: results, height and journal fit together, and the tip is the
block recorded at the current height. -/
structure Bookkeeping (X : ChainExecutor) : Prop extends Booked X where
  tip : X.hashAt X.height = some X.tip

/-! ### The journal as a stack -/

theorem Stacked.congr {f g : ℕ → Option BlockHash} :
    ∀ {height : ℕ} {l : List (ℕ × BlockHash × UndoRecord)}, (∀ h ≤ height, f h = g h) →
      Stacked f height l → Stacked g height l := by
  intro height l
  induction l generalizing height with
  | nil => exact fun _ _ => trivial
  | cons entry older ih =>
    rintro h ⟨h₁, h₂, h₃, h₄⟩
    exact ⟨h₁, h₂, (h height le_rfl).symm.trans h₃,
      ih (fun k hk => h k (hk.trans (Nat.sub_le _ _))) h₄⟩

theorem Stacked.le {f : ℕ → Option BlockHash} :
    ∀ {height : ℕ} {l : List (ℕ × BlockHash × UndoRecord)}, Stacked f height l →
      ∀ entry ∈ l, entry.1 ≤ height := by
  intro height l
  induction l generalizing height with
  | nil => exact fun _ _ h => absurd h List.not_mem_nil
  | cons first older ih =>
    rintro ⟨h₁, -, -, h₄⟩ entry hmem
    rcases List.mem_cons.mp hmem with rfl | hmem
    · exact h₁.le
    · exact (ih h₄ entry hmem).trans (Nat.sub_le _ _)

/-- Pruning cuts the old end off: heights fall, so what is below a bound is a tail. -/
theorem Stacked.prune {f : ℕ → Option BlockHash} (below : ℕ) :
    ∀ {height : ℕ} {l : List (ℕ × BlockHash × UndoRecord)}, Stacked f height l →
      Stacked f height (l.filter fun entry => below ≤ entry.1) := by
  intro height l
  induction l generalizing height with
  | nil => exact fun _ => trivial
  | cons entry older ih =>
    rintro ⟨h₁, h₂, h₃, h₄⟩
    -- the records come highest first
    by_cases hb : below ≤ entry.1
    · rw [List.filter_cons_of_pos (by simpa using hb)]
      exact ⟨h₁, h₂, h₃, ih h₄⟩
    · -- every older record is below the bound as well
      have hnil : (entry :: older).filter (fun entry => below ≤ entry.1) = [] := by
        rw [List.filter_eq_nil_iff]
        intro e he
        rcases List.mem_cons.mp he with rfl | he
        · simpa using hb
        · have hle := h₄.le e he
          simp only [decide_eq_true_eq]
          omega
      rw [hnil]
      trivial

/-! ### One operation -/

section Operations

variable [Evm] [Trie] [FeeRule]

omit [Evm] [Trie] [FeeRule] in
theorem Booked.pruneJournal {X : ChainExecutor} (h : Booked X) (below : ℕ) :
    Booked (X.pruneJournal below) := by
  refine ⟨h.mem_results, ?_⟩
  have hrev : (X.pruneJournal below).newestFirst
      = X.newestFirst.filter fun entry => below ≤ entry.1 := List.filter_reverse.symm
  rw [hrev]
  exact h.stacked.prune below

omit [Evm] in
/-- What `finish` does to the executor, whether or not the journal is long enough to prune. -/
theorem finish_eq (X : ChainExecutor) (hash : BlockHash) (header : Header) (ctx : ChainBlockCtx)
    (st : LayerState) : ∃ below, (X.finish hash header ctx st).1 =
      { X with
        state := st.state
        results := X.results.insert ctx.height (X.finish hash header ctx st).2
        journal := (X.journal ++ [(ctx.height, hash, st.block.undo)]).filter fun entry =>
          below ≤ entry.1
        parallelRounds := st.parallelRounds
        fallbackRounds := st.fallbackRounds
        height := ctx.height
        tip := hash } := by
  unfold finish
  dsimp only
  -- pruning starts once the chain is longer than the window; before that nothing is below 0
  by_cases hw : X.params.pruningWindowBlocks < ctx.height
  · rw [if_pos hw]
    exact ⟨_, rfl⟩
  · rw [if_neg hw]
    refine ⟨0, ?_⟩
    simp only [Nat.zero_le, decide_true, List.filter_true]

/-- The outcome of `finish` is that of the block. -/
theorem executeChainBlock_of_header (X : ChainExecutor) {D : DagStore} (bodies : BodyStore)
    {hash : BlockHash} {header : Header} (hl : D.headers.lookup hash = some header) :
    X.executeChainBlock D bodies hash =
      ((X.finish hash header (X.blockCtx hash header)
          (X.runTransactions (taggedTransactions D bodies hash) (X.blockCtx hash header))).1,
        .ok (X.finish hash header (X.blockCtx hash header)
          (X.runTransactions (taggedTransactions D bodies hash)
            (X.blockCtx hash header))).2) := by
  unfold executeChainBlock
  rw [hl]

/-- **What executing a block does.** It is refused, or it adds the next height: a result, a
journal record, the tip; and the journal may be pruned. -/
theorem executeChainBlock_cases (X : ChainExecutor) (D : DagStore) (bodies : BodyStore)
    (hash : BlockHash) :
    (hash ∉ D.headers ∧
      X.executeChainBlock D bodies hash = (X, .error (.unknownBlock hash))) ∨
    ∃ outcome undo below X', hash ∈ D.headers ∧
      X.executeChainBlock D bodies hash = (X', .ok outcome) ∧ outcome.hash = hash ∧
      X'.results = X.results.insert (X.height + 1) outcome ∧ X'.height = X.height + 1 ∧
      X'.tip = hash ∧ X'.journal
        = (X.journal ++ [(X.height + 1, hash, undo)]).filter fun entry => below ≤ entry.1 := by
  cases hl : D.headers.lookup hash with
  | none =>
    refine Or.inl ⟨Finmap.lookup_eq_none.mp hl, ?_⟩
    unfold executeChainBlock
    rw [hl]
  | some header =>
    set st := X.runTransactions (taggedTransactions D bodies hash) (X.blockCtx hash header)
    obtain ⟨below, hfinish⟩ := X.finish_eq hash header (X.blockCtx hash header) st
    refine Or.inr ⟨_, st.block.undo, below, _, Maps.mem_of_lookup hl,
      X.executeChainBlock_of_header bodies hl, rfl, ?_⟩
    rw [hfinish]
    exact ⟨rfl, rfl, rfl, rfl⟩

/-- **Executing a block** keeps the books, and leaves the right tip. -/
theorem Booked.executeChainBlock {X : ChainExecutor} (h : Booked X) (D : DagStore)
    (bodies : BodyStore) (hash : BlockHash) :
    Booked (X.executeChainBlock D bodies hash).1 ∧
      (hash ∈ D.headers → Bookkeeping (X.executeChainBlock D bodies hash).1) := by
  rcases executeChainBlock_cases X D bodies hash with
    ⟨hno, heq⟩ | ⟨outcome, undo, below, X', -, heq, hout, hres, hheight, htip, hjournal⟩
  · rw [heq]
    exact ⟨h, fun hmem => absurd hmem hno⟩
  rw [heq]
  -- only the new height has changed its hash
  have hat : ∀ k, X'.hashAt k = if k = X.height + 1 then some hash else X.hashAt k := by
    intro k
    unfold hashAt
    rw [hres, Maps.lookup_insert]
    split
    · rw [← hout]
      rfl
    · rfl
  have hbooked : Booked X' := by
    refine ⟨fun k => ?_, ?_⟩
    · rw [hres, hheight, Finmap.mem_insert, h.mem_results]
      omega
    · have hrev : X'.newestFirst = ((X.height + 1, hash, undo) :: X.newestFirst).filter
          fun entry => below ≤ entry.1 := by
        unfold newestFirst
        rw [hjournal, ← List.filter_reverse, List.reverse_append]
        rfl
      rw [hrev, hheight]
      refine Stacked.prune below ⟨rfl, Nat.succ_pos _, ?_, ?_⟩
      · rw [hat, if_pos rfl]
      · refine h.stacked.congr fun k hk => ?_
        rw [hat, if_neg (by omega)]
  exact ⟨hbooked, fun _ => ⟨hbooked, by rw [hheight, htip, hat, if_pos rfl]⟩⟩

omit [Evm] [Trie] [FeeRule] in
/-- **What an undo does.** It is refused, or it pops the newest record: the recorded
pre-values are restored and the result of that height is dropped. -/
theorem undoOne_cases (X : ChainExecutor) (expected : BlockHash) :
    (X.newestFirst.head?.map (fun entry => entry.2.1) ≠ some expected ∧
      ∃ e, X.undoOne expected = (X, .error e)) ∨
    ∃ height record older, X.newestFirst = (height, expected, record) :: older ∧
      X.undoOne expected = ({ X with
        state := UndoRecord.apply record X.state
        results := X.results.erase height
        journal := older.reverse
        height := height - 1
        tip := tipAfterUndo older.reverse (X.results.erase height) expected }, .ok ()) := by
  -- `undo_one` looks at the last journal entry, the first of `newestFirst`
  cases hrev : X.newestFirst with
  | nil =>
    refine Or.inl ⟨by simp, .nothingToUndo expected, ?_⟩
    have hnil : X.journal = [] := List.reverse_eq_nil_iff.mp hrev
    unfold undoOne
    rw [hnil]
    rfl
  | cons entry older =>
    obtain ⟨height, hash, record⟩ := entry
    have hjournal : X.journal = older.reverse ++ [(height, hash, record)] := by
      have h := congrArg List.reverse hrev
      unfold newestFirst at h
      rwa [List.reverse_reverse, List.reverse_cons] at h
    have hlast : X.journal.getLast? = some (height, hash, record) := by
      rw [hjournal, List.getLast?_concat]
    -- the newest entry is the block asked for, or the call is out of order
    by_cases he : hash = expected
    · refine Or.inr ⟨height, record, older, by rw [he], ?_⟩
      unfold undoOne
      rw [hlast]
      dsimp only
      rw [if_neg (not_not.mpr he), hjournal, List.dropLast_concat, he]
    · refine Or.inl ⟨by simpa using he, .undoOutOfOrder expected hash, ?_⟩
      unfold undoOne
      rw [hlast]
      dsimp only
      rw [if_pos he]

/-! ### A whole reorganisation -/

/-- What undoing `removed` leaves of an executor: `popped` are the records taken off the
journal, `X'` is the executor afterwards. -/
structure Undone (X : ChainExecutor) (removed : List BlockHash) (X' : ChainExecutor)
    (popped : List (ℕ × BlockHash × UndoRecord)) : Prop where
  booked : Booked X'
  newestFirst : X.newestFirst = popped ++ X'.newestFirst
  hashes : popped.map (fun entry => entry.2.1) = removed
  height : X'.height + removed.length = X.height
  results : ∀ h ≤ X'.height, X'.results.lookup h = X.results.lookup h
  state : X'.state = popped.foldl (fun s entry => UndoRecord.apply entry.2.2 s) X.state
  params : X'.params = X.params
  parallel : X'.parallel = X.parallel
  tip : removed ≠ [] →
    some X'.tip = (X'.newestFirst.head?.map fun entry => entry.2.1).or (X'.hashAt 0)

omit [Evm] [Trie] [FeeRule] in
/-- Undoing the newest record. -/
theorem Booked.undoOne {X X' : ChainExecutor} (h : Booked X) {expected : BlockHash}
    (hok : X.undoOne expected = (X', .ok ())) :
    ∃ entry, Undone X [expected] X' [entry] := by
  obtain ⟨-, e, he⟩ | ⟨height, record, older, hnew, hrun⟩ := undoOne_cases X expected
  · rw [he] at hok
    exact absurd (Prod.mk.inj hok).2 (by simp)
  rw [hrun] at hok
  obtain ⟨rfl, -⟩ := Prod.mk.inj hok
  have hstacked := h.stacked
  rw [hnew] at hstacked
  obtain ⟨rfl, hpos, -, holder⟩ := hstacked
  -- below the popped height the results are the old ones
  have hres : ∀ k ≤ X.height - 1, (X.results.erase X.height).lookup k = X.results.lookup k := by
    intro k hk
    rw [Maps.lookup_erase, if_neg (by omega)]
  have hbooked : Booked { X with
      state := UndoRecord.apply record X.state
      results := X.results.erase X.height
      journal := older.reverse
      height := X.height - 1
      tip := tipAfterUndo older.reverse (X.results.erase X.height) expected } := by
    refine ⟨fun k => ?_, ?_⟩
    · show k ∈ X.results.erase X.height ↔ k ≤ X.height - 1
      rw [Finmap.mem_erase, h.mem_results]
      omega
    · show Stacked _ (X.height - 1) older.reverse.reverse
      rw [List.reverse_reverse]
      refine holder.congr fun k hk => ?_
      show (X.results.lookup k).map _ = ((X.results.erase X.height).lookup k).map _
      rw [hres k hk]
  refine ⟨(X.height, expected, record), hbooked, ?_, rfl, ?_, hres, rfl, rfl, rfl, fun _ => ?_⟩
  · show X.newestFirst = [_] ++ older.reverse.reverse
    rw [List.reverse_reverse, hnew]
    rfl
  · show X.height - 1 + 1 = X.height
    omega
  · -- the tip: the newest record left, or what is recorded at height zero
    show some (tipAfterUndo older.reverse (X.results.erase X.height) expected)
      = (older.reverse.reverse.head?.map fun entry => entry.2.1).or
          (((X.results.erase X.height).lookup 0).map ChainBlockOutcome.hash)
    unfold tipAfterUndo
    rw [List.reverse_reverse, List.getLast?_reverse]
    cases older with
    | cons entry older => rfl
    | nil =>
      obtain ⟨outcome, hout⟩ := Maps.mem_iff_exists_lookup.mp
        ((hbooked.mem_results 0).mpr (Nat.zero_le _))
      rw [show (X.results.erase X.height).lookup 0 = some outcome from hout]
      rfl

omit [Evm] [Trie] [FeeRule] in
/-- Undoing a list is undoing its first block and then the rest. -/
theorem undoAll_cons {X X' : ChainExecutor} {hash : BlockHash} {removed : List BlockHash}
    (hok : X.undoAll (hash :: removed) = (X', .ok ())) :
    ∃ X₁, X.undoOne hash = (X₁, .ok ()) ∧ X₁.undoAll removed = (X', .ok ()) := by
  unfold ChainExecutor.undoAll at hok
  cases hone : X.undoOne hash with
  | mk X₁ result =>
    rw [hone] at hok
    cases result with
    | error e => exact absurd (Prod.mk.inj hok).2 (by simp)
    | ok _ => exact ⟨X₁, rfl, hok⟩

omit [Evm] [Trie] [FeeRule] in
/-- **Undoing a list** pops its records one after the other. -/
theorem Booked.undoAll {X X' : ChainExecutor} (h : Booked X) {removed : List BlockHash}
    (hok : X.undoAll removed = (X', .ok ())) : ∃ popped, Undone X removed X' popped := by
  induction removed generalizing X with
  | nil =>
    obtain ⟨rfl, -⟩ := Prod.mk.inj hok
    exact ⟨[], h, rfl, rfl, rfl, fun _ _ => rfl, rfl, rfl, rfl, fun hne => absurd rfl hne⟩
  -- one block undone, then the rest by induction
  | cons hash removed ih =>
    obtain ⟨X₁, hone, hremoved⟩ := undoAll_cons hok
    obtain ⟨entry, hfirst⟩ := h.undoOne hone
    obtain ⟨popped, hrest⟩ := ih hfirst.booked hremoved
    refine ⟨entry :: popped, hrest.booked, ?_, ?_, ?_, ?_, ?_, ?_, ?_, fun _ => ?_⟩
    · rw [hfirst.newestFirst, hrest.newestFirst]
      rfl
    · rw [List.map_cons, hrest.hashes, List.cons.injEq]
      exact ⟨List.singleton_injective hfirst.hashes, rfl⟩
    · have h₁ := hfirst.height
      have h₂ := hrest.height
      simp only [List.length_cons, List.length_nil] at h₁ ⊢
      omega
    · intro k hk
      have h₂ := hrest.height
      exact (hrest.results k hk).trans (hfirst.results k (by omega))
    · rw [hrest.state, hfirst.state]
      rfl
    · exact hrest.params.trans hfirst.params
    · exact hrest.parallel.trans hfirst.parallel
    · -- the last undo sets the tip
      cases removed with
      | nil =>
        obtain ⟨rfl, -⟩ := Prod.mk.inj hremoved
        exact hfirst.tip (List.cons_ne_nil _ _)
      | cons next removed => exact hrest.tip (List.cons_ne_nil _ _)

omit [Evm] [Trie] [FeeRule] in
/-- Where the tip is right after an undo: some record is left, or the undo arrived at a
block with the hash recorded at height zero. -/
theorem Undone.tip_iff {X X' : ChainExecutor} {removed : List BlockHash}
    {popped : List (ℕ × BlockHash × UndoRecord)} (h : Undone X removed X' popped)
    (hne : removed ≠ []) :
    X'.hashAt X'.height = some X'.tip ↔
      (removed.length = X.journal.length →
        X.hashAt (X.height - removed.length) = X.hashAt 0) := by
  have htip := h.tip hne
  have hlen : X.journal.length = removed.length + X'.newestFirst.length := by
    rw [← h.hashes, List.length_map, ← List.length_append, ← h.newestFirst]
    exact List.length_reverse.symm
  have hheight : X'.height = X.height - removed.length := by
    have := h.height
    omega
  have hat : ∀ k ≤ X'.height, X'.hashAt k = X.hashAt k := fun k hk =>
    congrArg (Option.map _) (h.results k hk)
  cases hleft : X'.newestFirst with
  | cons entry older =>
    -- a record is left, and it carries the hash of the height arrived at
    have hstacked := h.booked.stacked
    rw [hleft] at hstacked htip hlen
    refine iff_of_true ?_ fun hall => ?_
    · rw [hstacked.2.2.1, htip]
      rfl
    · rw [List.length_cons] at hlen
      omega
  | nil =>
    rw [hleft] at htip hlen
    rw [htip, ← hheight, ← hat _ le_rfl, ← hat 0 (Nat.zero_le _)]
    exact ⟨fun heq _ => heq, fun hall => hall (by rw [hlen]; rfl)⟩

/-- Executing a list keeps the books. If it executes at least one block, the tip is right
afterwards, whatever it was before. -/
theorem Booked.executeAll {X X' : ChainExecutor} (h : Booked X) {D : DagStore}
    {bodies : BodyStore} {added : List BlockHash} {outcomes : List ChainBlockOutcome}
    {result : Except ExecutionError (List ChainBlockOutcome)}
    (hrun : X.executeAll D bodies added outcomes = (X', result)) :
    Booked X' ∧ (result.isOk → added ≠ [] → Bookkeeping X') ∧ (added = [] → X' = X) := by
  induction added generalizing X outcomes with
  | nil =>
    obtain ⟨rfl, -⟩ := Prod.mk.inj hrun
    exact ⟨h, fun _ hne => absurd rfl hne, fun _ => rfl⟩
  | cons hash added ih =>
    unfold ChainExecutor.executeAll at hrun
    have hstep := h.executeChainBlock D bodies hash
    -- an unknown block ends the run where it is; a known one is booked and the run goes on
    obtain ⟨-, heq⟩ | ⟨outcome, -, -, X₁, hmem, heq, -⟩ :=
      executeChainBlock_cases X D bodies hash
    · rw [heq] at hrun
      obtain ⟨rfl, rfl⟩ := Prod.mk.inj hrun
      exact ⟨h, fun hok => absurd hok Bool.false_ne_true, fun hnil => by simp at hnil⟩
    · rw [heq] at hrun hstep
      obtain ⟨hbooked, hok, hsame⟩ := ih hstep.1 hrun
      refine ⟨hbooked, fun hres _ => ?_, fun hnil => by simp at hnil⟩
      -- the last block executed leaves the tip at itself
      by_cases hadded : added = []
      · rw [hsame hadded]
        exact hstep.2 hmem
      · exact hok hres hadded

omit [Evm] [Trie] [FeeRule] in
/-- An undo that is refused keeps the books all the same: it undid a part of the list. -/
theorem undoAll_split (X : ChainExecutor) (removed : List BlockHash) :
    ∃ undone rest X', removed = undone ++ rest ∧ X.undoAll undone = (X', .ok ()) ∧
      (rest = [] ∨ ∃ hash rest' e, rest = hash :: rest' ∧
        X'.newestFirst.head?.map (fun entry => entry.2.1) ≠ some hash ∧
          X.undoAll removed = (X', .error e)) := by
  induction removed generalizing X with
  | nil => exact ⟨[], [], X, rfl, rfl, Or.inl rfl⟩
  | cons hash removed ih =>
    -- either the first undo is refused, or it goes through and the rest is split
    obtain ⟨hne, e, he⟩ | ⟨height, record, older, -, hone⟩ := undoOne_cases X hash
    · refine ⟨[], hash :: removed, X, rfl, rfl, Or.inr ⟨hash, removed, e, rfl, hne, ?_⟩⟩
      unfold undoAll
      rw [he]
    · obtain ⟨undone, rest, X', hsplit, hrun, hrest⟩ := ih _
      refine ⟨hash :: undone, rest, X', by rw [hsplit]; rfl, ?_, ?_⟩
      · unfold undoAll
        rw [hone]
        exact hrun
      · refine hrest.imp id ?_
        rintro ⟨next, rest', e, heq, hne, he⟩
        refine ⟨next, rest', e, heq, hne, ?_⟩
        unfold undoAll
        rw [hone]
        exact he

/-! ### Runs -/

/-- A call on the executor, with the store and the bodies it reads. -/
inductive Call where
  | applyReorg (D : DagStore) (bodies : BodyStore) (removed added : List BlockHash)
  | executeChainBlock (D : DagStore) (bodies : BodyStore) (hash : BlockHash)
  | pruneJournal (belowHeight : ℕ)
  | setParallel (parallel : Bool)

/-- Makes a call: the executor afterwards, and whether the call returned `Ok`. -/
def call (X : ChainExecutor) : Call → ChainExecutor × Bool
  | .applyReorg D bodies removed added =>
    ((X.applyReorg D bodies removed added).1, (X.applyReorg D bodies removed added).2.isOk)
  | .executeChainBlock D bodies hash =>
    ((X.executeChainBlock D bodies hash).1, (X.executeChainBlock D bodies hash).2.isOk)
  | .pruneJournal belowHeight => (X.pruneJournal belowHeight, true)
  | .setParallel parallel => (X.setParallel parallel, true)

/-- The executor after a call, whether it succeeded or not. -/
def step (X : ChainExecutor) (call : Call) : ChainExecutor := (X.call call).1

/-- The call returns `Ok`. -/
def Succeeds (X : ChainExecutor) (call : Call) : Prop := (X.call call).2 = true

/-- The call is not an undo that empties the journal away from genesis: a reorganisation
that executes nothing and undoes everything the journal holds arrives at a block with the
hash recorded at height zero. -/
def KeepsTip (X : ChainExecutor) : Call → Prop
  | .applyReorg _ _ removed added =>
    added = [] → removed ≠ [] → removed.length = X.journal.length →
      X.hashAt (X.height - removed.length) = X.hashAt 0
  | _ => True

omit [Evm] in
/-- An executor over a genesis state keeps its books. -/
theorem bookkeeping_new (params : ChainParams) (genesisState : WorldState)
    (genesisHash : BlockHash) : Bookkeeping (new params genesisState genesisHash) := by
  refine ⟨⟨fun h => ?_, trivial⟩, ?_⟩
  · show h ∈ Finmap.singleton 0 _ ↔ h ≤ 0
    rw [Finmap.mem_singleton, Nat.le_zero]
  · unfold hashAt new
    dsimp only
    rw [Finmap.lookup_singleton_eq]
    rfl

/-- **The books are always kept**: every call keeps results, height and journal together,
also one that is refused half-way. -/
theorem Booked.step {X : ChainExecutor} (h : Booked X) (call : Call) :
    Booked (X.step call) := by
  cases call with
  | applyReorg D bodies removed added =>
    show Booked (X.applyReorg D bodies removed added).1
    obtain ⟨undone, rest, X', hsplit, hrun, hrest⟩ := undoAll_split X removed
    obtain ⟨popped, hundone⟩ := h.undoAll hrun
    unfold applyReorg
    -- an undo that fails leaves what was undone before it, and nothing is executed
    obtain rfl | ⟨hash, rest', e, rfl, -, he⟩ := hrest
    · rw [List.append_nil] at hsplit
      rw [hsplit, hrun]
      exact (hundone.booked.executeAll rfl).1
    · rw [he]
      exact hundone.booked
  | executeChainBlock D bodies hash => exact (h.executeChainBlock D bodies hash).1
  | pruneJournal belowHeight => exact h.pruneJournal belowHeight
  | setParallel parallel => exact ⟨h.mem_results, h.stacked⟩

/-- **What a successful call does to the tip.** -/
theorem Bookkeeping.step_iff {X : ChainExecutor} (h : Bookkeeping X) {call : Call}
    (hok : X.Succeeds call) : Bookkeeping (X.step call) ↔ X.KeepsTip call := by
  have hbooked := h.toBooked.step call
  cases call with
  | applyReorg D bodies removed added =>
    -- the undo runs as far as it can; only if that is to the end does the call succeed
    obtain ⟨undone, rest, X', hsplit, hrun, hrest⟩ := undoAll_split X removed
    obtain ⟨popped, hundone⟩ := h.toBooked.undoAll hrun
    obtain rfl | ⟨hash, rest', e, rfl, -, he⟩ := hrest
    · obtain rfl : removed = undone := by rw [hsplit, List.append_nil]
      have happly : X.applyReorg D bodies removed added = X'.executeAll D bodies added [] := by
        unfold applyReorg
        rw [hrun]
      have hstep : X.step (.applyReorg D bodies removed added)
          = (X'.executeAll D bodies added []).1 := congrArg Prod.fst happly
      have hres : (X'.executeAll D bodies added []).2.isOk = true := by
        rw [← happly]
        exact hok
      obtain ⟨-, htip, hsame⟩ := hundone.booked.executeAll
        (show X'.executeAll D bodies added [] = ((X'.executeAll D bodies added []).1,
          (X'.executeAll D bodies added []).2) from rfl)
      by_cases hadded : added = []
      · -- nothing is executed: the tip is the one the undo left
        rw [hstep, hsame hadded]
        by_cases hremoved : removed = []
        · subst hremoved
          obtain ⟨rfl, -⟩ := Prod.mk.inj hrun
          exact iff_of_true h fun _ hne => absurd rfl hne
        · rw [show Bookkeeping X' ↔ X'.hashAt X'.height = some X'.tip from
            ⟨fun hX => hX.tip, fun ht => ⟨hundone.booked, ht⟩⟩, hundone.tip_iff hremoved]
          exact ⟨fun hall _ _ => hall, fun hall => hall hadded hremoved⟩
      · rw [hstep]
        exact iff_of_true (htip hres hadded) fun hnil => absurd hnil hadded
    · -- a refused undo is not a success
      have hfail : (X.applyReorg D bodies removed added).2.isOk = false := by
        unfold applyReorg
        rw [he]
        rfl
      exact absurd (hfail.symm.trans hok) Bool.false_ne_true
  | executeChainBlock D bodies hash =>
    obtain ⟨-, heq⟩ | ⟨-, -, -, -, hmem, -⟩ := executeChainBlock_cases X D bodies hash
    · have hfail : (X.executeChainBlock D bodies hash).2.isOk = false := by
        rw [heq]
        rfl
      exact absurd (hfail.symm.trans hok) Bool.false_ne_true
    · exact iff_of_true ((h.toBooked.executeChainBlock D bodies hash).2 hmem) trivial
  | pruneJournal belowHeight => exact iff_of_true ⟨hbooked, h.tip⟩ trivial
  | setParallel parallel => exact iff_of_true ⟨hbooked, h.tip⟩ trivial

/-- **The bookkeeping of the executor.** In a run of successful calls, results, height,
journal and tip fit together in every state exactly when no call is an undo that empties
the journal and arrives at a block other than the one recorded at height zero. -/
theorem bookkeeping_iff (params : ChainParams) (genesisState : WorldState)
    (genesisHash : BlockHash) (calls : List Call)
    (hok : Runs.Each step Succeeds (new params genesisState genesisHash) calls) :
    Runs.Throughout step Bookkeeping (new params genesisState genesisHash) calls ↔
      Runs.Each step KeepsTip (new params genesisState genesisHash) calls := by
  have hnew := bookkeeping_new params genesisState genesisHash
  refine Runs.throughout_iff_each (I := Booked) ?_ ?_ hnew.toBooked hnew hok
  · intro X call hX _ _ _
    exact hX.step call
  · intro X call _ hX hcall
    exact hX.step_iff hcall

end Operations

end ChainExecutor

/-! ### An undo to the horizon -/

namespace Idle

/-- An EVM under which no transaction is executable, for runs over empty bodies. -/
scoped instance idleEvm : Evm := ⟨fun _ _ _ _ _ => none, fun _ _ _ _ _ => ∅⟩

scoped instance idleTrie : Trie := ⟨fun _ => 0, fun _ => 0, 0⟩

scoped instance idleFees : FeeRule := ⟨fun _ _ baseFee => baseFee, fun _ => 0, 0⟩

open Sample

/-- An executor over an empty state, at genesis. -/
def start : ChainExecutor := .new params ⟨∅, ∅, ∅⟩ (hashOf 0)

/-- A chain of three blocks on genesis. -/
def chain : DagStore :=
  (DagStore.new root 2 10).addBlocks
    [block 1 [0] 0x2000ffff, block 2 [1] 0x2000ffff, block 3 [2] 0x2000ffff]

/-- Executes the block of nonce `n` of the chain. -/
def execute (n : ℕ) : ChainExecutor.Call := .executeChainBlock chain ∅ (hashOf n)

/-- Executes two blocks, prunes the first record, and undoes the second block. -/
def undoToHorizon : List ChainExecutor.Call :=
  [execute 1, execute 2, .pruneJournal 2, .applyReorg chain ∅ [hashOf 2] []]

/-- The same, but the reorganisation goes on to execute two blocks. -/
def replaceAtHorizon : List ChainExecutor.Call :=
  [execute 1, execute 2, .pruneJournal 2, .applyReorg chain ∅ [hashOf 2] [hashOf 2, hashOf 3]]

end Idle

namespace ChainExecutor

open Idle

/-- A run whose reorganisation executes something keeps its books, pruned or not. -/
theorem bookkeeping_iff_replaceAtHorizon :
    Runs.Throughout step Bookkeeping start replaceAtHorizon := by
  refine (bookkeeping_iff Sample.params ⟨∅, ∅, ∅⟩ (Sample.hashOf 0) replaceAtHorizon ?_).mpr ?_
  · refine ⟨?_, ?_, ?_, ?_, trivial⟩
    · show _ = true
      decide +kernel
    · show _ = true
      decide +kernel
    · rfl
    · show _ = true
      decide +kernel
  · exact ⟨trivial, trivial, trivial, fun h => absurd h (List.cons_ne_nil _ _), trivial⟩

/-- Undoing the only record left of a pruned journal leaves the executor at height one with
the tip of height zero. -/
theorem undo_to_horizon_misplaces_tip :
    Runs.Each step Succeeds start undoToHorizon ∧
      (Runs.after step start undoToHorizon).height = 1 ∧
      (Runs.after step start undoToHorizon).hashAt 1 = some (Sample.hashOf 1) ∧
      (Runs.after step start undoToHorizon).tip = Sample.hashOf 0 ∧
      ¬ Runs.Throughout step Bookkeeping start undoToHorizon := by
  have hheight : (Runs.after step start undoToHorizon).height = 1 := by decide +kernel
  have hat : (Runs.after step start undoToHorizon).hashAt 1 = some (Sample.hashOf 1) := by
    decide +kernel
  have htip : (Runs.after step start undoToHorizon).tip = Sample.hashOf 0 := by decide +kernel
  refine ⟨⟨?_, ?_, ?_, ?_, trivial⟩, hheight, hat, htip, ?_⟩
  · show _ = true
    decide +kernel
  · show _ = true
    decide +kernel
  · rfl
  · show _ = true
    decide +kernel
  · intro h
    -- the last state of the run
    have hlast : Bookkeeping (Runs.after step start undoToHorizon) := h.2.2.2.2
    have htrue := hlast.tip
    rw [hheight, hat, htip] at htrue
    exact absurd htrue (by decide +kernel)

end ChainExecutor

end Chainname
