import Chainname.Chain.Rounds

/-!
# The gas budget across rounds

Sequential execution threads one gas budget through the whole block. The parallel path
threads it through the rounds it commits, but a round that falls back is run by a fresh
sequential block whose gas starts at zero, and only then absorbed. So a transaction of such
a round is measured against the whole budget again.

Given that accepted rounds are sound (`RoundsSound`), this is the only difference: the two
paths agree exactly when no transaction of a round that falls back fits in the budget
counted from the start of the round, does not fit counted from the start of the block, and
is executable where it stands (`overruns`). The proof walks the rounds with the two paths
in step, and stops at the first overrun, where the parallel path executes a transaction that
the sequential one skips for good.
-/

namespace Chainname

/-- Two blocks report the same: gas, counts, hashes and receipts. -/
structure SameResults (b₁ b₂ : ExecutedBlock) : Prop where
  gasUsed : b₁.gasUsed = b₂.gasUsed
  executed : b₁.executed = b₂.executed
  deferred : b₁.deferred = b₂.deferred
  transactionHashes : b₁.transactionHashes = b₂.transactionHashes
  receipts : b₁.receipts = b₂.receipts

theorem SameResults.refl (b : ExecutedBlock) : SameResults b b := ⟨rfl, rfl, rfl, rfl, rfl⟩

theorem SameResults.trans {b₁ b₂ b₃ : ExecutedBlock} (h : SameResults b₁ b₂)
    (h' : SameResults b₂ b₃) : SameResults b₁ b₃ :=
  ⟨h.gasUsed.trans h'.gasUsed, h.executed.trans h'.executed, h.deferred.trans h'.deferred,
    h.transactionHashes.trans h'.transactionHashes, h.receipts.trans h'.receipts⟩

theorem SameResults.skip {b₁ b₂ : ExecutedBlock} (h : SameResults b₁ b₂) :
    SameResults b₁.skip b₂.skip :=
  ⟨h.gasUsed, h.executed, congrArg (· + 1) h.deferred, h.transactionHashes, h.receipts⟩

/-- Noting pre-values is not reported. -/
theorem SameResults.noteAll {b₁ b₂ : ExecutedBlock} (h : SameResults b₁ b₂)
    (as₁ as₂ : Finset Address) (s₁ s₂ : WorldState) :
    SameResults (b₁.noteAll as₁ s₁) (b₂.noteAll as₂ s₂) :=
  ⟨h.gasUsed, h.executed, h.deferred, h.transactionHashes, h.receipts⟩

theorem SameResults.record {b₁ b₂ : ExecutedBlock} (h : SameResults b₁ b₂) (tx : ChainTx)
    (result : ExecutionResult) : SameResults (b₁.record tx result) (b₂.record tx result) := by
  obtain ⟨h₁, h₂, h₃, h₄, h₅⟩ := h
  refine ⟨?_, ?_, h₃, ?_, ?_⟩
  · exact congrArg (U64.saturatingAdd · _) h₁
  · exact congrArg (· + 1) h₂
  · exact congrArg (· ++ _) h₄
  · unfold ExecutedBlock.record
    dsimp only
    rw [h₁, h₅]

section Budget

variable [Evm] (params : ChainParams) (ctx : ChainBlockCtx) (gasLimit : ℕ)

/-- The soundness of round validation: committing the speculations of an accepted round one
by one gives the results sequential execution of that round would give. -/
def RoundsSound : Prop :=
  ∀ (s : WorldState) (round : List (Address × ChainTx)),
    validate (speculate s params ctx round) = none →
      commitAll params ctx s round = runRound params ctx s round

/-- The transaction fits in what is left of the budget after `gasUsed`. -/
def fits (gasUsed : ℕ) (tx : ChainTx) : Bool :=
  decide (U64.saturatingAdd gasUsed tx.gasLimit ≤ gasLimit)

/-- The transaction fits counted from the round's start, overruns the budget counted from
the block's start, where `base` was used before the round, and is executable. -/
def overruns (base : ℕ) (st : WorldState × ExecutedBlock) (item : Address × ChainTx) : Bool :=
  fits gasLimit st.2.gasUsed item.2 && !fits gasLimit (U64.saturatingAdd base st.2.gasUsed) item.2
    && (Evm.transact params ctx item.1 item.2 st.1).isSome

/-- No transaction of a round overruns where the round's own run reaches it. -/
def RoundFits (base : ℕ) : WorldState × ExecutedBlock → List (Address × ChainTx) → Prop
  | _, [] => True
  | st, item :: round =>
    overruns params ctx gasLimit base st item = false ∧
      RoundFits base (transactOne params ctx gasLimit st item) round

/-- No round that falls back holds a transaction that overruns. The rounds are followed
along the sequential path, from where it stands at the start of each. -/
def FallbacksFit (tagged : List (Address × ChainTx)) :
    List (List ℕ) → WorldState × ExecutedBlock → Prop
  | [], _ => True
  | layer :: layers, st =>
    (validate (speculate st.1 params ctx (pick tagged layer)) ≠ none →
      RoundFits params ctx gasLimit st.2.gasUsed (st.1, .empty) (pick tagged layer)) ∧
    FallbacksFit tagged layers ((pick tagged layer).foldl (transactOne params ctx gasLimit) st)

variable {params ctx gasLimit}

/-! ### Accepted rounds -/

variable (params ctx) in
/-- The two paths inside an accepted round, after the transactions `done` were let in. -/
structure InStep (s : WorldState) (done : List (Address × ChainTx)) (st : RoundState)
    (q : WorldState × ExecutedBlock) : Prop where
  committed : (st.state, st.credited) = commitItems params ctx s done
  sequential : q.1 = (runRound params ctx s done).1
  same : SameResults st.block q.2

/-- In an accepted round a speculation has the result that the transaction has when the
sequential path reaches it. -/
theorem result_eq_of_accepted (hsound : RoundsSound params ctx) {s : WorldState}
    {done : List (Address × ChainTx)} {item : Address × ChainTx}
    (hacc : Accepted params ctx s (done ++ [item])) :
    (speculation params ctx s item).result =
      (Evm.transact params ctx item.1 item.2 (runRound params ctx s done).1).map Prod.fst := by
  -- soundness of the round with `item` as its last: the last result on either side
  have hall := congrArg Prod.snd (hsound s (done ++ [item]) (validate_speculate.mpr hacc))
  rw [commitAll_eq, runRound_append_singleton, List.map_append, List.map_singleton] at hall
  cases htx : Evm.transact params ctx item.1 item.2 (runRound params ctx s done).1 with
  | none =>
    rw [htx] at hall
    exact List.singleton_inj.mp (List.append_inj_right' hall rfl)
  | some out =>
    rw [htx] at hall
    exact List.singleton_inj.mp (List.append_inj_right' hall rfl)

variable (gasLimit) in
/-- One transaction of an accepted round: let in by both paths, or by neither. -/
theorem InStep.step (hsound : RoundsSound params ctx) {s : WorldState}
    {done : List (Address × ChainTx)} {st : RoundState} {q : WorldState × ExecutedBlock}
    {item : Address × ChainTx} (h : InStep params ctx s done st q)
    (hacc : Accepted params ctx s (done ++ [item])) :
    ∃ done', (done' = done ∨ done' = done ++ [item]) ∧
      InStep params ctx s done' (commitOne gasLimit st (item, speculation params ctx s item))
        (transactOne params ctx gasLimit q item) := by
  obtain ⟨hcom, hseq, hsame⟩ := h
  have hres := result_eq_of_accepted hsound hacc
  have hitems := commitItems_append_singleton params ctx s done item
  have hrun := runRound_append_singleton params ctx s done item
  unfold commitOne transactOne
  rw [hsame.gasUsed, hseq]
  dsimp only
  split
  · -- no room left: both paths skip it, and it is not let in
    exact ⟨done, Or.inl rfl, hcom, rfl, hsame.skip⟩
  · -- room left: soundness makes the speculation's result that of the run
    refine ⟨done ++ [item], Or.inr rfl, ?_⟩
    rw [← hcom] at hitems
    unfold commitSpeculation at hitems
    cases htx : Evm.transact params ctx item.1 item.2 (runRound params ctx s done).1 with
    | none =>
      rw [htx] at hres hrun
      rw [hres] at hitems ⊢
      exact ⟨hitems.symm, (congrArg Prod.fst hrun).symm, hsame.skip⟩
    | some out =>
      rw [htx] at hres hrun
      rw [hres] at hitems ⊢
      refine ⟨hitems.symm, (congrArg Prod.fst hrun).symm, SameResults.record ?_ _ _⟩
      exact (hsame.noteAll _ ∅ _ st.state).noteAll _ _ _ _

variable (gasLimit) in
/-- A whole accepted round, under the budget. -/
theorem InStep.run (hsound : RoundsSound params ctx) {s : WorldState} :
    ∀ (round done : List (Address × ChainTx)) (st : RoundState) (q : WorldState × ExecutedBlock),
      InStep params ctx s done st q → Accepted params ctx s (done ++ round) →
      ∃ done', Accepted params ctx s done' ∧ InStep params ctx s done'
        (round.foldl (fun st item => commitOne gasLimit st (item, speculation params ctx s item)) st)
        (round.foldl (transactOne params ctx gasLimit) q) := by
  intro round
  -- the transactions still to be taken, those let in so far in `done`
  induction round with
  | nil =>
    intro done st q h hacc
    exact ⟨done, List.append_nil done ▸ hacc, h⟩
  | cons item round ih =>
    intro done st q h hacc
    rw [List.append_cons] at hacc
    obtain ⟨done', hdone, hstep⟩ :=
      h.step gasLimit hsound (hacc.sublist (List.sublist_append_left _ _))
    refine ih done' _ _ hstep (hacc.sublist ?_)
    -- a transaction that was not let in leaves a round that is accepted all the more
    rcases hdone with rfl | rfl
    · exact (List.sublist_append_left _ _).append_right _
    · exact List.Sublist.refl _

variable (gasLimit) in
/-- **An accepted round** leaves the two paths at the same state, with the same results. -/
theorem commitRound_same (hsound : RoundsSound params ctx) {s : WorldState}
    {b₁ b₂ : ExecutedBlock} (hsame : SameResults b₁ b₂) {round : List (Address × ChainTx)}
    (hval : validate (speculate s params ctx round) = none) :
    (commitRound gasLimit s b₁ (round.zip (speculate s params ctx round))).1
        = (round.foldl (transactOne params ctx gasLimit) (s, b₂)).1 ∧
      SameResults (commitRound gasLimit s b₁ (round.zip (speculate s params ctx round))).2
        (round.foldl (transactOne params ctx gasLimit) (s, b₂)).2 := by
  obtain ⟨done, hacc, hcom, hseq, hsame'⟩ :=
    InStep.run gasLimit hsound round [] ⟨s, b₁, []⟩ (s, b₂) ⟨rfl, rfl, hsame⟩
      (validate_speculate.mp hval)
  unfold commitRound
  rw [foldl_speculate (commitOne gasLimit) (fun _ _ _ _ => rfl)]
  refine ⟨?_, hsame'⟩
  -- the round let in is accepted, so its commits end in the state of its run
  have hstate := congrArg Prod.fst (hsound s done (validate_speculate.mpr hacc))
  rw [commitAll_eq, ← hcom] at hstate
  exact hstate.trans hseq.symm

/-! ### Rounds that fall back -/

omit [Evm] in
/-- Absorbing a block that recorded one more transaction records it once more. -/
theorem absorb_record (base block : ExecutedBlock) (addresses : Finset Address) (s s' : WorldState)
    (tx : ChainTx) (result : ExecutionResult) :
    SameResults (base.absorb ((block.noteAll addresses s).record tx result))
      (((base.absorb block).noteAll addresses s').record tx result) := by
  have hgas : U64.saturatingAdd base.gasUsed (U64.saturatingAdd block.gasUsed result.txGasUsed)
      = U64.saturatingAdd (U64.saturatingAdd base.gasUsed block.gasUsed) result.txGasUsed :=
    (U64.saturatingAdd_assoc _ _ _).symm
  refine ⟨hgas, rfl, rfl, ?_, ?_⟩
  · exact (List.append_assoc _ _ _).symm
  · unfold ExecutedBlock.absorb ExecutedBlock.record ExecutedBlock.noteAll
    dsimp only
    rw [List.map_append, List.append_assoc, List.map_singleton, hgas]

/-- The fallback's own block, absorbed, reports what the block-wide path reports. -/
structure Rebased (base : ExecutedBlock) (st q : WorldState × ExecutedBlock) : Prop where
  state : q.1 = st.1
  same : SameResults (base.absorb st.2) q.2

/-- A transaction that does not overrun is treated alike by the fallback and by the
block-wide path. -/
theorem Rebased.step {base : ExecutedBlock} {st q : WorldState × ExecutedBlock}
    {item : Address × ChainTx} (h : Rebased base st q)
    (hfit : overruns params ctx gasLimit base.gasUsed st item = false) :
    Rebased base (transactOne params ctx gasLimit st item)
      (transactOne params ctx gasLimit q item) := by
  obtain ⟨hstate, hsame⟩ := h
  -- the block's gas is what was used before the round and what the round used
  have hgas : q.2.gasUsed = U64.saturatingAdd base.gasUsed st.2.gasUsed := hsame.gasUsed.symm
  unfold overruns fits at hfit
  unfold transactOne
  rw [hstate, hgas]
  by_cases hlocal : gasLimit < U64.saturatingAdd st.2.gasUsed item.2.gasLimit
  · -- too big for the round, hence for the block
    have hglobal : gasLimit < U64.saturatingAdd (U64.saturatingAdd base.gasUsed st.2.gasUsed)
        item.2.gasLimit := by
      unfold U64.saturatingAdd at hlocal ⊢
      omega
    rw [if_pos hlocal, if_pos hglobal]
    exact ⟨rfl, hsame.skip⟩
  rw [if_neg hlocal]
  by_cases hglobal : gasLimit < U64.saturatingAdd (U64.saturatingAdd base.gasUsed st.2.gasUsed)
      item.2.gasLimit
  · -- too big for the block only: then it is not executable, and both skip it
    rw [if_pos hglobal]
    have hnone : Evm.transact params ctx item.1 item.2 st.1 = none := by
      rw [decide_eq_true (not_lt.mp hlocal), decide_eq_false (not_le.mpr hglobal)] at hfit
      exact Option.not_isSome_iff_eq_none.mp (by simpa using hfit)
    rw [hnone]
    exact ⟨rfl, hsame.skip⟩
  · -- room in both: they execute the same transaction
    rw [if_neg hglobal]
    cases Evm.transact params ctx item.1 item.2 st.1 with
    | none => exact ⟨rfl, hsame.skip⟩
    | some out =>
      refine ⟨rfl, ?_⟩
      have habs := absorb_record base st.2 out.2.keys st.1 st.1 item.2 out.1
      have hrec := (hsame.noteAll out.2.keys out.2.keys st.1 st.1).record item.2 out.1
      exact habs.trans hrec

/-- A round in which nothing overruns falls back to what the block-wide path does. -/
theorem Rebased.run {base : ExecutedBlock} : ∀ (round : List (Address × ChainTx))
    (st q : WorldState × ExecutedBlock), Rebased base st q →
    RoundFits params ctx gasLimit base.gasUsed st round →
    Rebased base (round.foldl (transactOne params ctx gasLimit) st)
      (round.foldl (transactOne params ctx gasLimit) q) := by
  intro round
  induction round with
  | nil => exact fun _ _ h _ => h
  | cons item round ih => exact fun st q h hfit => ih _ _ (h.step hfit.1) hfit.2

variable (params ctx gasLimit) in
/-- Executing transactions appends hashes of theirs, in order. -/
theorem hashes_foldl : ∀ (round : List (Address × ChainTx)) (st : WorldState × ExecutedBlock),
    ∃ hashes, (round.foldl (transactOne params ctx gasLimit) st).2.transactionHashes
        = st.2.transactionHashes ++ hashes ∧
      hashes.Sublist (round.map fun item => item.2.hash) := by
  intro round
  -- only an executed transaction leaves its hash
  induction round with
  | nil => exact fun st => ⟨[], (List.append_nil _).symm, List.Sublist.refl _⟩
  | cons item round ih =>
    intro st
    obtain ⟨hashes, heq, hsub⟩ := ih (transactOne params ctx gasLimit st item)
    rw [List.foldl_cons, heq, List.map_cons]
    unfold transactOne
    split
    · exact ⟨hashes, rfl, hsub.cons _⟩
    · split
      · refine ⟨item.2.hash :: hashes, ?_, hsub.cons_cons _⟩
        exact List.append_assoc _ _ _
      · exact ⟨hashes, rfl, hsub.cons _⟩

/-- **The first overrun.** The fallback executes a transaction that the block-wide path
skips; the paths reported the same hashes before it. -/
theorem Rebased.diverge {base : ExecutedBlock} : ∀ (round : List (Address × ChainTx))
    (st q : WorldState × ExecutedBlock), Rebased base st q →
    ¬ RoundFits params ctx gasLimit base.gasUsed st round →
    ∃ done item rest before after later, round = done ++ item :: rest ∧
      (base.absorb (round.foldl (transactOne params ctx gasLimit) st).2).transactionHashes
        = before ++ item.2.hash :: after ∧
      (round.foldl (transactOne params ctx gasLimit) q).2.transactionHashes = before ++ later ∧
      later.Sublist (rest.map fun item => item.2.hash) := by
  intro round
  induction round with
  | nil => exact fun _ _ _ hno => absurd trivial hno
  | cons item round ih =>
    intro st q h hno
    by_cases hfit : overruns params ctx gasLimit base.gasUsed st item = false
    · obtain ⟨done, item', rest, before, after, later, hround, h₁, h₂, h₃⟩ :=
        ih _ _ (h.step hfit) fun hrest => hno ⟨hfit, hrest⟩
      exact ⟨item :: done, item', rest, before, after, later, congrArg _ hround, h₁, h₂, h₃⟩
    -- this transaction overruns: executed by the fallback, skipped block-wide
    obtain ⟨hstate, hsame⟩ := h
    have hgas : q.2.gasUsed = U64.saturatingAdd base.gasUsed st.2.gasUsed := hsame.gasUsed.symm
    unfold overruns fits at hfit
    rw [Bool.not_eq_false, Bool.and_eq_true, Bool.and_eq_true, decide_eq_true_iff,
      Bool.not_eq_true', decide_eq_false_iff_not, not_le, Option.isSome_iff_exists] at hfit
    obtain ⟨⟨hlocal, hglobal⟩, out, hout⟩ := hfit
    have hq : transactOne params ctx gasLimit q item = (q.1, q.2.skip) := by
      unfold transactOne
      rw [hgas, if_pos hglobal]
    have hst : transactOne params ctx gasLimit st item
        = (st.1.commit out.2, (st.2.noteAll out.2.keys st.1).record item.2 out.1) := by
      unfold transactOne
      rw [if_neg (not_lt.mpr hlocal), hout]
    obtain ⟨after, hafter, -⟩ := hashes_foldl params ctx gasLimit round
      (transactOne params ctx gasLimit st item)
    obtain ⟨later, hlater, hsub⟩ := hashes_foldl params ctx gasLimit round
      (transactOne params ctx gasLimit q item)
    refine ⟨[], item, round, q.2.transactionHashes, after, later, rfl, ?_, ?_, hsub⟩
    · have hbefore := hsame.transactionHashes
      rw [List.foldl_cons]
      unfold ExecutedBlock.absorb at hbefore ⊢
      dsimp only at hbefore ⊢
      rw [hafter, hst, ← hbefore]
      simp [ExecutedBlock.record, ExecutedBlock.noteAll]
    · rw [List.foldl_cons, hlater, hq]
      rfl

/-! ### The block -/

/-- The two paths agree on a block: same accounts, same results. -/
def SameExecution (p : LayerState) (q : WorldState × ExecutedBlock) : Prop :=
  p.state.accounts = q.1.accounts ∧ SameResults p.block q.2

omit [Evm] in
/-- Committing a round appends hashes to the block. -/
theorem hashes_commitRound : ∀ (round : List ((Address × ChainTx) × Speculation))
    (st : RoundState), ∃ hashes,
      (round.foldl (commitOne gasLimit) st).block.transactionHashes
        = st.block.transactionHashes ++ hashes := by
  intro round
  induction round with
  | nil => exact fun st => ⟨[], (List.append_nil _).symm⟩
  | cons item round ih =>
    intro st
    obtain ⟨hashes, heq⟩ := ih (commitOne gasLimit st item)
    rw [List.foldl_cons, heq]
    unfold commitOne
    split
    · exact ⟨hashes, rfl⟩
    · split
      · exact ⟨hashes, rfl⟩
      · exact ⟨item.1.2.hash :: hashes, List.append_assoc _ _ _⟩

variable (params ctx gasLimit) in
/-- Rounds append hashes to the block as well. -/
theorem hashes_layers (tagged : List (Address × ChainTx)) : ∀ (layers : List (List ℕ))
    (st : LayerState), ∃ hashes,
      (layers.foldl (executeLayer params ctx gasLimit tagged) st).block.transactionHashes
        = st.block.transactionHashes ++ hashes := by
  intro layers
  induction layers with
  | nil => exact fun st => ⟨[], (List.append_nil _).symm⟩
  | cons layer layers ih =>
    intro st
    obtain ⟨hashes, heq⟩ := ih (executeLayer params ctx gasLimit tagged st layer)
    rw [List.foldl_cons, heq]
    -- one layer appends whatever it executed, in either mode
    suffices ∃ new, (executeLayer params ctx gasLimit tagged st layer).block.transactionHashes
        = st.block.transactionHashes ++ new by
      obtain ⟨new, hnew⟩ := this
      exact ⟨new ++ hashes, by rw [hnew, List.append_assoc]⟩
    unfold executeLayer
    dsimp only
    split
    · exact ⟨_, rfl⟩
    · exact hashes_commitRound _ ⟨st.state, st.block, []⟩

omit [Evm] in
/-- A fresh block absorbed changes nothing, as gas never exceeds 64 bits. -/
theorem absorb_empty {base : ExecutedBlock} (hgas : base.gasUsed ≤ 2 ^ 64 - 1) :
    SameResults (base.absorb .empty) base := by
  refine ⟨?_, rfl, rfl, List.append_nil _, List.append_nil _⟩
  exact min_eq_left hgas

/-- Gas used stays in 64 bits. -/
theorem gasUsed_le : ∀ (round : List (Address × ChainTx)) (st : WorldState × ExecutedBlock),
    st.2.gasUsed ≤ 2 ^ 64 - 1 →
    (round.foldl (transactOne params ctx gasLimit) st).2.gasUsed ≤ 2 ^ 64 - 1 := by
  intro round
  induction round with
  | nil => exact fun _ h => h
  | cons item round ih =>
    intro st h
    refine ih _ ?_
    unfold transactOne
    split
    · exact h
    · split
      · exact min_le_right _ _
      · exact h

variable (gasLimit) in
theorem executeLayer_of_accepted {tagged : List (Address × ChainTx)} {st : LayerState}
    {layer : List ℕ} (hval : validate (speculate st.state params ctx (pick tagged layer)) = none) :
    executeLayer params ctx gasLimit tagged st layer =
      { st with
        state := (commitRound gasLimit st.state st.block ((pick tagged layer).zip
          (speculate st.state params ctx (pick tagged layer)))).1
        block := (commitRound gasLimit st.state st.block ((pick tagged layer).zip
          (speculate st.state params ctx (pick tagged layer)))).2
        parallelRounds := st.parallelRounds + 1 } := by
  unfold executeLayer
  dsimp only
  rw [hval]

variable (gasLimit) in
theorem executeLayer_of_conflict {tagged : List (Address × ChainTx)} {st : LayerState}
    {layer : List ℕ} {conflict : RoundConflict}
    (hval : validate (speculate st.state params ctx (pick tagged layer)) = some conflict) :
    executeLayer params ctx gasLimit tagged st layer =
      { st with
        state := (executeSequentially params ctx gasLimit st.state tagged layer).1
        block := st.block.absorb
          (executeSequentially params ctx gasLimit st.state tagged layer).2
        fallbackRounds := st.fallbackRounds + 1 } := by
  unfold executeLayer
  dsimp only
  rw [hval]

/-- **An overrun shows.** The first transaction that fits only because the round's gas is counted
from zero leaves its hash in one list, and the other list never gets it. -/
theorem Rebased.overrun_shows {tagged : List (Address × ChainTx)} {st : LayerState}
    {layer : List ℕ} {layers : List (List ℕ)} {b : ExecutedBlock} {conflict : RoundConflict}
    (hstart : Rebased st.block (st.state, .empty) (st.state, b))
    (hval : validate (speculate st.state params ctx (pick tagged layer)) = some conflict)
    (hfit : ¬ RoundFits params ctx gasLimit st.block.gasUsed (st.state, .empty)
      (pick tagged layer))
    (hnd : ((pick tagged layer).map (fun item => item.2.hash)
      ++ (pick tagged layers.flatten).map fun item => item.2.hash).Nodup) :
    ¬ SameExecution (layers.foldl (executeLayer params ctx gasLimit tagged)
        (executeLayer params ctx gasLimit tagged st layer))
      ((pick tagged layers.flatten).foldl (transactOne params ctx gasLimit)
        ((pick tagged layer).foldl (transactOne params ctx gasLimit) (st.state, b))) := by
  rintro ⟨-, hfinal⟩
  obtain ⟨done, item, rest, before, after, later, hround, h₁, h₂, h₃⟩ :=
    hstart.diverge _ _ _ hfit
  obtain ⟨more, hmore⟩ := hashes_layers params ctx gasLimit tagged layers
    (executeLayer params ctx gasLimit tagged st layer)
  obtain ⟨more', hmore', hsub⟩ := hashes_foldl params ctx gasLimit
    (pick tagged layers.flatten)
    ((pick tagged layer).foldl (transactOne params ctx gasLimit) (st.state, b))
  have hlists := hfinal.transactionHashes
  rw [hmore, hmore', executeLayer_of_conflict gasLimit hval, h₂] at hlists
  dsimp only at hlists
  unfold executeSequentially at hlists
  rw [h₁, List.append_assoc, List.append_assoc, List.append_cancel_left_eq,
    List.cons_append] at hlists
  -- so the hash comes again later, which no transaction's does
  have hmem : item.2.hash ∈ later ++ more' := hlists ▸ List.mem_cons_self
  rw [hround, List.map_append, List.map_cons, List.append_assoc] at hnd
  have hfresh := (List.nodup_cons.mp (List.nodup_append.mp hnd).2.1).1
  rcases List.mem_append.mp hmem with hm | hm
  · exact hfresh (List.mem_append_left _ (h₃.subset hm))
  · exact hfresh (List.mem_append_right _ (hsub.subset hm))

variable (gasLimit) in
/-- **Round by round.** From states in step, the rounds leave the paths in agreement exactly
when no fallback overruns. -/
theorem layers_iff (hsound : RoundsSound params ctx) (tagged : List (Address × ChainTx)) :
    ∀ (layers : List (List ℕ)) (st : LayerState) (q : WorldState × ExecutedBlock),
      st.state = q.1 → SameResults st.block q.2 → q.2.gasUsed ≤ 2 ^ 64 - 1 →
      ((pick tagged layers.flatten).map fun item => item.2.hash).Nodup →
      (SameExecution (layers.foldl (executeLayer params ctx gasLimit tagged) st)
          ((pick tagged layers.flatten).foldl (transactOne params ctx gasLimit) q) ↔
        FallbacksFit params ctx gasLimit tagged layers q) := by
  intro layers
  induction layers with
  | nil =>
    intro st q hstate hsame _ _
    exact iff_of_true ⟨congrArg _ hstate, hsame⟩ trivial
  | cons layer layers ih =>
    rintro st ⟨s, b⟩ hstate hsame hgas hnd
    obtain rfl : st.state = s := hstate
    rw [List.flatten_cons, pick_append, List.map_append] at hnd
    have hnd' := (List.nodup_append.mp hnd).2.1
    rw [List.flatten_cons, pick_append, List.foldl_append, List.foldl_cons]
    unfold FallbacksFit
    cases hval : validate (speculate st.state params ctx (pick tagged layer)) with
    | none =>
      -- accepted: both paths stay in step, and the condition says nothing
      obtain ⟨hs, hr⟩ := commitRound_same gasLimit hsound hsame hval
      rw [executeLayer_of_accepted gasLimit hval, ih _ _ hs hr (gasUsed_le _ _ hgas) hnd']
      exact ⟨fun h => ⟨fun hno => absurd rfl hno, h⟩, fun h => h.2⟩
    | some conflict =>
      have hstart : Rebased st.block (st.state, .empty) (st.state, b) := by
        have habs := absorb_empty (hsame.gasUsed.trans_le hgas)
        exact ⟨rfl, habs.trans hsame⟩
      by_cases hfit : RoundFits params ctx gasLimit st.block.gasUsed (st.state, .empty)
          (pick tagged layer)
      · -- nothing overruns: the fallback is what the block-wide path does
        obtain ⟨hs, hr⟩ := hstart.run _ _ _ hfit
        rw [executeLayer_of_conflict gasLimit hval, ih _ _ hs.symm hr (gasUsed_le _ _ hgas) hnd']
        exact ⟨fun h => ⟨fun _ => hsame.gasUsed ▸ hfit, h⟩, fun h => h.2⟩
      · refine iff_of_false (hstart.overrun_shows hval hfit hnd) fun h => ?_
        exact hfit (hsame.gasUsed ▸ h.1 (by simp))

variable (gasLimit) in
/-- **When parallel execution is sequential execution.** With sound validation and distinct
transactions, the two paths agree on a block in its canonical order exactly when no round
that falls back holds a transaction that fits in the budget only because the round's gas is
counted from zero, and is executable. -/
theorem parallel_agrees_iff (hsound : RoundsSound params ctx) (s : WorldState)
    (tagged : List (Address × ChainTx)) (hnd : (tagged.map fun item => item.2.hash).Nodup) :
    let access := tagged.map fun item => TxAccessSet.of item.2
    let order := layerAndSort access
    SameExecution (executeRoundsParallel params ctx gasLimit s tagged order access)
        (executeSequentially params ctx gasLimit s tagged order) ↔
      FallbacksFit params ctx gasLimit tagged (partitionRounds order access) (s, .empty) := by
  intro access order
  -- the rounds put together are the order the sequential path takes
  have hflat : (partitionRounds order access).flatten = order := flatten_partitionRounds _ _
  have hhashes : ((pick tagged order).map fun item => item.2.hash).Nodup :=
    ((pick_canonical_perm tagged).map _).nodup_iff.mpr hnd
  have hiff := layers_iff gasLimit hsound tagged (partitionRounds order access)
    ⟨s, .empty, 0, 0⟩ (s, .empty) rfl (SameResults.refl _) (Nat.zero_le _)
  rw [hflat] at hiff
  exact hiff hhashes

end Budget

/-! ### A block on which the paths part -/

section Overrun

namespace Slots

/-- A sender's account after a transaction that bumped its nonce and wrote a slot of it. -/
def slotEntry (tx : ChainTx) : RevmAccount where
  info := ⟨0, tx.nonce + 1, keccak256Empty⟩
  code := none
  storage := Finmap.singleton 0 1
  touched := true
  created := false
  selfdestructed := false
  loadedAsNotExisting := false

/-- An EVM under which every transaction uses all its gas, bumps its sender's nonce and
writes a slot of its sender's account. -/
scoped instance slotEvm : Evm where
  transact _ _ _ tx _ :=
    some (⟨true, tx.gasLimit, []⟩, Finmap.singleton tx.signer (slotEntry tx))
  loaded _ _ _ tx _ := {tx.signer}

/-- The first block after genesis. -/
def ctx : ChainBlockCtx := ⟨1, 0, initialBaseFee, 100, 0⟩

/-- A call from account 1, declaring 60 gas. -/
def call (hash : B256) (nonce : UInt64) : ChainTx where
  hash := hash
  signer := 1
  nonce := nonce
  gasLimit := 60
  maxFeePerGas := 0
  maxPriorityFeePerGas := none
  kind := some 2
  value := 0
  input := []
  accessList := none

/-- Two calls of account 1: the first mined by account 9, the second by account 1 itself. -/
def selfMined : List (Address × ChainTx) := [(9, call 1 0), (1, call 2 1)]

end Slots

open Slots Sample

/-- Under this EVM a transaction mined by its own sender touches its beneficiary; any other
leaves its whole change set and no fee. -/
theorem slotEvm_speculation {s : WorldState} {item : Address × ChainTx}
    (h : (speculation params ctx s item).touchedBeneficiary = false) :
    (speculation params ctx s item).result = some ⟨true, item.2.gasLimit, []⟩ ∧
      (speculation params ctx s item).diff = Finmap.singleton item.2.signer (slotEntry item.2) ∧
      (speculation params ctx s item).feeCredit = 0 := by
  have htx : Evm.transact params ctx item.1 item.2 s = some (⟨true, item.2.gasLimit, []⟩,
      Finmap.singleton item.2.signer (slotEntry item.2)) := rfl
  unfold speculation speculateOne at h ⊢
  rw [htx] at h ⊢
  dsimp only at h ⊢
  -- a beneficiary that is the sender would be touched by more than a fee
  by_cases hself : item.1 = item.2.signer
  · -- the slot keeps its entry from passing for a fee
    have hslot : (slotEntry item.2).storage ≠ ∅ :=
      (by decide : (Finmap.singleton 0 1 : Map B256 B256) ≠ ∅)
    rw [hself, Finmap.lookup_singleton_eq, ← hself] at h
    dsimp only at h
    rw [purelyFee_of_storage s item.1 _ hslot] at h
    exact absurd (h : true = false) Bool.noConfusion
  · have hnone : (Finmap.singleton item.2.signer (slotEntry item.2) : EvmState).lookup item.1
        = none := by
      rw [Finmap.lookup_eq_none, Finmap.mem_singleton]
      exact hself
    rw [hnone]
    exact ⟨rfl, rfl, rfl⟩

/-- Accepted rounds are sound under this EVM: no transaction looks at the state, and there
are no fees to credit. -/
theorem slotEvm_sound : RoundsSound params ctx := by
  intro s round hval
  have hacc := (validate_speculate.mp hval).untouched
  have hitems : commitItems params ctx s round
        = ((runRound params ctx s round).1, round.map fun item => (item.1, 0)) ∧
      (runRound params ctx s round).2
        = round.map fun item => (speculation params ctx s item).result := by
    -- hypothesis out of the way of the induction, which is over longer and longer rounds
    clear hval
    induction round using List.reverseRecOn with
    | nil => exact ⟨rfl, rfl⟩
    | append_singleton round item ih =>
      obtain ⟨hcom, hres⟩ := ih fun x hx => hacc x (List.mem_append_left _ hx)
      obtain ⟨hr, hd, hf⟩ := slotEvm_speculation
        (hacc item (List.mem_append_right _ List.mem_cons_self))
      have htx : Evm.transact params ctx item.1 item.2 (runRound params ctx s round).1
          = some (⟨true, item.2.gasLimit, []⟩,
            Finmap.singleton item.2.signer (slotEntry item.2)) := rfl
      rw [commitItems_append_singleton, runRound_append_singleton, htx, hcom]
      unfold commitSpeculation
      rw [hr, hd, hf, List.map_append, List.map_append, hres, List.map_singleton,
        List.map_singleton, hr]
      exact ⟨rfl, rfl⟩
  -- a zero credit changes nothing
  have hcredit : ∀ (l : List (Address × ChainTx)) (s : WorldState),
      (l.map fun item => (item.1, (0 : B256))).foldl creditOne s = s := by
    intro l
    induction l with
    | nil => exact fun _ => rfl
    | cons item l ih => exact fun s => ih s
  rw [commitAll_eq, hitems.1, hcredit, ← hitems.2]

/-- Where every transaction fits, the two paths agree. -/
theorem parallel_agrees_iff_selfMined :
    SameExecution
      (executeRoundsParallel params ctx 120 ⟨∅, ∅, ∅⟩ selfMined
        (layerAndSort (selfMined.map fun item => TxAccessSet.of item.2))
        (selfMined.map fun item => TxAccessSet.of item.2))
      (executeSequentially params ctx 120 ⟨∅, ∅, ∅⟩ selfMined
        (layerAndSort (selfMined.map fun item => TxAccessSet.of item.2))) := by
  refine (parallel_agrees_iff 120 slotEvm_sound ⟨∅, ∅, ∅⟩ selfMined (by decide)).mpr ?_
  have hrounds : partitionRounds
      (layerAndSort (selfMined.map fun item => TxAccessSet.of item.2))
      (selfMined.map fun item => TxAccessSet.of item.2) = [[0], [1]] := by decide +kernel
  rw [hrounds]
  -- each of the two layers falls back, and fits within the 120 gas
  refine ⟨fun _ => ⟨?_, trivial⟩, fun _ => ⟨?_, trivial⟩, trivial⟩
  · decide +kernel
  · decide +kernel

/-- **The budget is not threaded through a fallback.** Two calls of one account declare 60
gas each, the block's limit is 100. The second is mined by its own sender, so its round
falls back, and the parallel path executes both; the sequential path skips the second. -/
theorem fallback_overruns_budget :
    let access := selfMined.map fun item => TxAccessSet.of item.2
    let order := layerAndSort access
    RoundsSound params ctx ∧
      (executeRoundsParallel params ctx 100 ⟨∅, ∅, ∅⟩ selfMined order access).block.executed = 2 ∧
      (executeSequentially params ctx 100 ⟨∅, ∅, ∅⟩ selfMined order).2.executed = 1 ∧
      ¬ SameExecution (executeRoundsParallel params ctx 100 ⟨∅, ∅, ∅⟩ selfMined order access)
        (executeSequentially params ctx 100 ⟨∅, ∅, ∅⟩ selfMined order) := by
  intro access order
  have hp : (executeRoundsParallel params ctx 100 ⟨∅, ∅, ∅⟩ selfMined order access).block.executed
      = 2 := by decide +kernel
  have hq : (executeSequentially params ctx 100 ⟨∅, ∅, ∅⟩ selfMined order).2.executed = 1 := by
    decide +kernel
  refine ⟨slotEvm_sound, hp, hq, fun h => ?_⟩
  have hexec := h.2.executed
  rw [hp, hq] at hexec
  exact absurd hexec (by decide)

end Overrun

end Chainname
