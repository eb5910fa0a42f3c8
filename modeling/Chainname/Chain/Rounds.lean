import Chainname.Chain.Executor

/-!
# Rounds without a budget

What a round does when gas is no concern: `runRound` executes it one transaction at a time,
`commitAll` runs every transaction against the state before the round, commits the change
sets in order and credits the fees at the end. The two are the reference and the
optimisation that the parallel path chooses between, and what is proved about rounds is
stated about them.

A speculation depends on its transaction and the state before the round, not on the other
transactions of the round or on its place in it. Whether a round is accepted is therefore
a property of the list of transactions (`Accepted`) that every sublist inherits.
-/

namespace Chainname

section Rounds

variable [Evm] (params : ChainParams) (ctx : ChainBlockCtx)

/-- A round one transaction at a time: the state after it and the result of each, `none`
for a transaction that was not executable when it was reached. -/
def runRound : WorldState → List (Address × ChainTx) →
    WorldState × List (Option ExecutionResult)
  | s, [] => (s, [])
  | s, item :: round =>
    match Evm.transact params ctx item.1 item.2 s with
    | some (result, changes) =>
      ((runRound (s.commit changes) round).1, some result :: (runRound (s.commit changes) round).2)
    | none => ((runRound s round).1, none :: (runRound s round).2)

/-- Commits one speculation: its change set now, its fee later. -/
def commitSpeculation (st : WorldState × List (Address × B256))
    (item : (Address × ChainTx) × Speculation) : WorldState × List (Address × B256) :=
  match item.2.result with
  | none => st
  | some _ => (st.1.commit item.2.diff, st.2 ++ [(item.1.1, item.2.feeCredit)])

/-- Commits the speculations of a round one by one, then credits the fees. -/
def commitAll (s : WorldState) (round : List (Address × ChainTx)) :
    WorldState × List (Option ExecutionResult) :=
  let speculations := speculate s params ctx round
  let st := (round.zip speculations).foldl commitSpeculation (s, [])
  (st.2.foldl creditOne st.1, speculations.map Speculation.result)

/-- The speculation of a transaction, its place in the round left out. -/
def speculation (s : WorldState) (item : Address × ChainTx) : Speculation :=
  speculateOne s params ctx 0 item.1 item.2

/-- A round that `validate` accepts, as a property of its transactions. -/
structure Accepted (s : WorldState) (round : List (Address × ChainTx)) : Prop where
  untouched : ∀ item ∈ round, (speculation params ctx s item).touchedBeneficiary = false
  independent : round.Pairwise fun earlier later =>
    Independent (speculation params ctx s earlier) (speculation params ctx s later)

variable {params ctx}

/-! ### The place in the round does not matter -/

theorem speculateOne_index (s : WorldState) (i : ℕ) (item : Address × ChainTx) :
    speculateOne s params ctx i item.1 item.2 = { speculation params ctx s item with index := i } := by
  unfold speculation speculateOne
  cases Evm.transact params ctx item.1 item.2 s with
  | none => rfl
  | some out =>
    obtain ⟨result, diff⟩ := out
    dsimp only
    -- the index is written into the record and read by nothing else
    cases diff.lookup item.1 with
    | none => rfl
    | some entry =>
      dsimp only
      split
      · rfl
      · rfl

/-- A speculation has no result exactly when the transaction is not executable. -/
theorem speculation_result_eq_none {s : WorldState} {item : Address × ChainTx} :
    (speculation params ctx s item).result = none ↔
      Evm.transact params ctx item.1 item.2 s = none := by
  unfold speculation speculateOne
  cases Evm.transact params ctx item.1 item.2 s with
  | none => exact iff_of_true rfl rfl
  | some out =>
    obtain ⟨result, diff⟩ := out
    -- every branch of an executed transaction carries its result
    refine iff_of_false ?_ (Option.some_ne_none _)
    dsimp only
    cases diff.lookup item.1 with
    | none => exact Option.some_ne_none _
    | some entry =>
      dsimp only
      split
      · exact Option.some_ne_none _
      · exact Option.some_ne_none _

/-- A loop over the speculations of a round that does not look at the index is a loop over
its transactions. -/
theorem foldl_speculate {σ : Type} (g : σ → (Address × ChainTx) × Speculation → σ)
    (hg : ∀ st item spec i, g st (item, { spec with index := i }) = g st (item, spec))
    (s : WorldState) (round : List (Address × ChainTx)) (st : σ) :
    (round.zip (speculate s params ctx round)).foldl g st =
      round.foldl (fun st item => g st (item, speculation params ctx s item)) st := by
  -- the enumeration from any first index
  have hfrom : ∀ (round : List (Address × ChainTx)) (n : ℕ) (st : σ),
      (round.zip ((round.zipIdx n).map fun item =>
        speculateOne s params ctx item.2 item.1.1 item.1.2)).foldl g st =
      round.foldl (fun st item => g st (item, speculation params ctx s item)) st := by
    intro round
    induction round with
    | nil => intro _ _; rfl
    | cons item round ih =>
      intro n st
      rw [List.zipIdx_cons, List.map_cons, List.zip_cons_cons, List.foldl_cons, List.foldl_cons,
        ih, speculateOne_index, hg]
  exact hfrom round 0 st

theorem map_speculate {β : Type} (f : Speculation → β)
    (hf : ∀ spec i, f { spec with index := i } = f spec) (s : WorldState)
    (round : List (Address × ChainTx)) :
    (speculate s params ctx round).map f = round.map fun item => f (speculation params ctx s item) := by
  have hfrom : ∀ (round : List (Address × ChainTx)) (n : ℕ),
      ((round.zipIdx n).map fun item =>
        speculateOne s params ctx item.2 item.1.1 item.1.2).map f =
      round.map fun item => f (speculation params ctx s item) := by
    intro round
    induction round with
    | nil => intro _; rfl
    | cons item round ih =>
      intro n
      rw [List.zipIdx_cons, List.map_cons, List.map_cons, List.map_cons, ih, speculateOne_index, hf]
  exact hfrom round 0

/-- **Acceptance.** `validate` accepts the speculations of a round exactly when the round is
`Accepted`. -/
theorem validate_speculate {s : WorldState} {round : List (Address × ChainTx)} :
    validate (speculate s params ctx round) = none ↔ Accepted params ctx s round := by
  -- validation does not look at the indices
  let unindexed : Speculation → Speculation := fun spec => { spec with index := 0 }
  have hmap : (speculate s params ctx round).map unindexed
      = round.map (speculation params ctx s) := by
    rw [map_speculate _ (fun _ _ => rfl)]
    exact List.map_congr_left fun item _ => (speculateOne_index s 0 item).symm
  have htouched : (∀ spec ∈ speculate s params ctx round, spec.touchedBeneficiary = false) ↔
      ∀ item ∈ round, (speculation params ctx s item).touchedBeneficiary = false :=
    calc (∀ spec ∈ speculate s params ctx round, spec.touchedBeneficiary = false)
        ↔ ∀ spec ∈ (speculate s params ctx round).map unindexed,
            spec.touchedBeneficiary = false := by rw [List.forall_mem_map]
      _ ↔ _ := by rw [hmap, List.forall_mem_map]
  have hindependent : (speculate s params ctx round).Pairwise Independent ↔
      round.Pairwise fun earlier later =>
        Independent (speculation params ctx s earlier) (speculation params ctx s later) :=
    calc (speculate s params ctx round).Pairwise Independent
        ↔ ((speculate s params ctx round).map unindexed).Pairwise Independent := by
          rw [List.pairwise_map]
          exact List.Pairwise.iff fun a b =>
            ⟨fun h => ⟨h.reads, h.writes⟩, fun h => ⟨h.reads, h.writes⟩⟩
      _ ↔ _ := by rw [hmap, List.pairwise_map]
  rw [validate_eq_none, htouched, hindependent]
  exact ⟨fun h => ⟨h.1, h.2⟩, fun h => ⟨h.1, h.2⟩⟩

/-- Leaving transactions out of an accepted round leaves an accepted round. -/
theorem Accepted.sublist {s : WorldState} {round round' : List (Address × ChainTx)}
    (h : Accepted params ctx s round) (hsub : round'.Sublist round) :
    Accepted params ctx s round' :=
  ⟨fun item hm => h.untouched item (hsub.subset hm), h.independent.sublist hsub⟩

omit [Evm] in
/-- A round up to one of its transactions is part of it. -/
theorem sublist_of_split {round before after : List (Address × ChainTx)}
    {item : Address × ChainTx} (h : round = before ++ item :: after) :
    (before ++ [item]).Sublist round := by
  rw [h]
  exact (List.Sublist.refl before).append (List.singleton_sublist.mpr List.mem_cons_self)

/-! ### One more transaction -/

variable (params ctx) in
/-- What one transaction does to the state of a sequential run. -/
theorem runRound_append_singleton (s : WorldState) (round : List (Address × ChainTx))
    (item : Address × ChainTx) :
    runRound params ctx s (round ++ [item]) =
      match Evm.transact params ctx item.1 item.2 (runRound params ctx s round).1 with
      | some (result, changes) =>
        ((runRound params ctx s round).1.commit changes,
          (runRound params ctx s round).2 ++ [some result])
      | none => ((runRound params ctx s round).1, (runRound params ctx s round).2 ++ [none]) := by
  -- the run of the round first, then the last transaction
  induction round generalizing s with
  | nil =>
    rw [List.nil_append]
    unfold runRound
    cases Evm.transact params ctx item.1 item.2 s with
    | none => rfl
    | some out => rfl
  | cons first round ih =>
    rw [List.cons_append]
    unfold runRound
    cases Evm.transact params ctx first.1 first.2 s with
    | none =>
      dsimp only
      rw [ih]
      cases Evm.transact params ctx item.1 item.2 (runRound params ctx s round).1 with
      | none => rfl
      | some out => rfl
    | some first_out =>
      dsimp only
      rw [ih]
      cases Evm.transact params ctx item.1 item.2
        (runRound params ctx (s.commit first_out.2) round).1 with
      | none => rfl
      | some out => rfl

theorem runRound_cons_none {s : WorldState} {item : Address × ChainTx}
    (h : Evm.transact params ctx item.1 item.2 s = none) (round : List (Address × ChainTx)) :
    runRound params ctx s (item :: round)
      = ((runRound params ctx s round).1, none :: (runRound params ctx s round).2) := by
  rw [runRound, h]

theorem runRound_cons_some {s : WorldState} {item : Address × ChainTx}
    {out : ExecutionResult × EvmState}
    (h : Evm.transact params ctx item.1 item.2 s = some out) (round : List (Address × ChainTx)) :
    runRound params ctx s (item :: round) = ((runRound params ctx (s.commit out.2) round).1,
      some out.1 :: (runRound params ctx (s.commit out.2) round).2) := by
  rw [runRound, h]

variable (params ctx) in
/-- Running a list, then another. -/
theorem runRound_append (s : WorldState) (round more : List (Address × ChainTx)) :
    runRound params ctx s (round ++ more) =
      ((runRound params ctx (runRound params ctx s round).1 more).1,
        (runRound params ctx s round).2 ++
          (runRound params ctx (runRound params ctx s round).1 more).2) := by
  induction round generalizing s with
  | nil => rfl
  | cons item round ih =>
    rw [List.cons_append]
    cases htx : Evm.transact params ctx item.1 item.2 s with
    | none =>
      rw [runRound_cons_none htx, runRound_cons_none htx, ih]
      rfl
    | some out =>
      rw [runRound_cons_some htx, runRound_cons_some htx, ih]
      rfl

theorem length_runRound (s : WorldState) (round : List (Address × ChainTx)) :
    (runRound params ctx s round).2.length = round.length := by
  induction round generalizing s with
  | nil => rfl
  | cons item round ih =>
    cases htx : Evm.transact params ctx item.1 item.2 s with
    | none =>
      rw [runRound_cons_none htx]
      exact congrArg Nat.succ (ih s)
    | some out =>
      rw [runRound_cons_some htx]
      exact congrArg Nat.succ (ih (s.commit out.2))

/-- The result of a transaction in the middle of a run. -/
theorem runRound_result (s : WorldState) (round more : List (Address × ChainTx))
    (item : Address × ChainTx) :
    (runRound params ctx s (round ++ item :: more)).2[round.length]? =
      some ((Evm.transact params ctx item.1 item.2 (runRound params ctx s round).1).map
        Prod.fst) := by
  rw [runRound_append, List.getElem?_append_right (length_runRound s round).le, length_runRound,
    Nat.sub_self]
  -- the result at the position of `item` is the head of what follows
  cases htx : Evm.transact params ctx item.1 item.2 (runRound params ctx s round).1 with
  | none =>
    rw [runRound_cons_none htx]
    rfl
  | some out =>
    rw [runRound_cons_some htx]
    rfl

variable (params ctx) in
/-- The loop of `commitAll`, over the transactions. -/
def commitItems (s : WorldState) (round : List (Address × ChainTx)) :
    WorldState × List (Address × B256) :=
  round.foldl (fun st item => commitSpeculation st (item, speculation params ctx s item)) (s, [])

variable (params ctx) in
theorem commitItems_append_singleton (s : WorldState) (round : List (Address × ChainTx))
    (item : Address × ChainTx) :
    commitItems params ctx s (round ++ [item]) =
      commitSpeculation (commitItems params ctx s round) (item, speculation params ctx s item) := by
  unfold commitItems
  rw [List.foldl_append]
  rfl

theorem commitAll_eq (s : WorldState) (round : List (Address × ChainTx)) :
    commitAll params ctx s round =
      ((commitItems params ctx s round).2.foldl creditOne (commitItems params ctx s round).1,
        round.map fun item => (speculation params ctx s item).result) := by
  unfold commitAll commitItems
  dsimp only
  rw [foldl_speculate commitSpeculation (fun _ _ _ _ => rfl), map_speculate _ (fun _ _ => rfl)]

end Rounds

end Chainname
