import Chainname.Chain.Detours

/-!
# Soundness of round validation

A round that `validate` accepts is committed as it is run, and skips what the run skips, if
its pairs are undisturbed. That a failed speculation stays failed asks for less: only what
leads up to a failing transaction need be undisturbed. The converse cannot hold for one EVM,
which may read an account and not care; it holds for EVMs that validation cannot tell apart.
-/

namespace Chainname

/-! ### Commits and skips of an accepted round -/

/-- **Commits.** Of a round that `validate` accepts and whose transactions are all executable
before it: if no transaction reads the beneficiary that an earlier one pays, committing the
round is running it. Conversely, if that holds of every EVM alike before the round, and no
beneficiary's balance is full, no transaction reads such a beneficiary. -/
theorem validated_round_commits_as_run [E : LocalEvm] (params : ChainParams)
    (ctx : ChainBlockCtx) (s : WorldState) (round : List (Address × ChainTx))
    (hvalid : validate (speculate s params ctx round) = none)
    (hexec : ∀ spec ∈ speculate s params ctx round, spec.result ≠ none) :
    (round.Pairwise (FeeUnread params ctx s) → CommitsAsRun params ctx s round) ∧
      (NoneFull s round →
        (∀ E', Alike E E' params ctx s round → @CommitsAsRun E'.toEvm params ctx s round) →
          round.Pairwise (FeeUnread params ctx s)) := by
  have hacc : Accepted params ctx s round := validate_speculate.mp hvalid
  have hres : ∀ item ∈ round, (speculation params ctx s item).result ≠ none := by
    intro item hm hnone
    have hmem : none ∈ (speculate s params ctx round).map Speculation.result := by
      rw [map_speculate _ (fun _ _ => rfl)]
      exact List.mem_map.mpr ⟨item, hm, hnone⟩
    obtain ⟨spec, hspec, heq⟩ := List.mem_map.mp hmem
    exact hexec spec hspec heq
  -- among executable transactions a pair is undisturbed if the fee is unread
  have hiff : round.Pairwise (Undisturbed params ctx s)
      ↔ round.Pairwise (FeeUnread params ctx s) := by
    refine List.Pairwise.iff_of_mem fun _ hlater => ?_
    rw [Undisturbed, if_neg (hres _ hlater)]
  refine ⟨fun hunread => commitsAsRun_of_undisturbed hacc (hiff.mpr hunread),
    fun hfull hall => ?_⟩
  by_contra hnot
  obtain ⟨E', halike, before, item, after, hsplit, hwrong⟩ :=
    exists_detour E hacc hfull fun hund => hnot (hiff.mp hund)
  -- the results of the round differ in the place of `item`
  have hresults := (hall E' halike).results
  rw [commitAll_eq, hsplit] at hresults
  have hat := congrArg (fun l => l[before.length]?) hresults
  dsimp only at hat
  rw [runRound_result, List.map_append, List.getElem?_append_right (by rw [List.length_map]),
    List.length_map, Nat.sub_self, List.map_cons, List.getElem?_cons_zero, Option.some.injEq]
    at hat
  refine hwrong ?_
  rw [hat, Option.map_eq_none_iff]

/-- Every transaction of the round that is not executable before it is not executable when its
turn comes in the run either. -/
def FailsAsRun [Evm] (params : ChainParams) (ctx : ChainBlockCtx) (s : WorldState)
    (round : List (Address × ChainTx)) : Prop :=
  ∀ before item after, round = before ++ item :: after →
    (speculation params ctx s item).result = none →
      Evm.transact params ctx item.1 item.2 (runRound params ctx s before).1 = none

/-- Every transaction of the round is skipped by its speculation exactly when it is not
executable when its turn comes in the run. -/
def SkipsAsRun [Evm] (params : ChainParams) (ctx : ChainBlockCtx) (s : WorldState)
    (round : List (Address × ChainTx)) : Prop :=
  ∀ before item after, round = before ++ item :: after →
    ((speculation params ctx s item).result = none ↔
      Evm.transact params ctx item.1 item.2 (runRound params ctx s before).1 = none)

/-- What leads up to a transaction that is not executable before the round is undisturbed,
unless that transaction reads nothing. -/
def FailuresUndisturbed [LocalEvm] (params : ChainParams) (ctx : ChainBlockCtx) (s : WorldState)
    (round : List (Address × ChainTx)) : Prop :=
  ∀ before item after, round = before ++ item :: after →
    (speculation params ctx s item).result = none → (readsOf params ctx s item).Nonempty →
      (before ++ [item]).Pairwise (Undisturbed params ctx s)

/-- The result of a transaction whose prefix runs in step with its speculations. -/
theorem Agrees.transact_eq_none [LocalEvm] {params : ChainParams} {ctx : ChainBlockCtx}
    {s : WorldState} {before : List (Address × ChainTx)} {item : Address × ChainTx}
    (h : Agrees params ctx s (before ++ [item])) :
    (speculation params ctx s item).result = none ↔
      Evm.transact params ctx item.1 item.2 (runRound params ctx s before).1 = none := by
  have hat := congrArg (fun l => l[before.length]?) h.results
  rw [runRound_result, List.map_append, List.getElem?_append_right (by rw [List.length_map]),
    List.length_map, Nat.sub_self, List.map_singleton, List.getElem?_cons_zero,
    Option.some.injEq] at hat
  rw [← hat, Option.map_eq_none_iff]

/-- **Failures.** Of an accepted round: if what leads up to the failing transactions is
undisturbed, they fail in the run. -/
theorem failsAsRun_of_undisturbed [LocalEvm] {params : ChainParams} {ctx : ChainBlockCtx}
    {s : WorldState} {round : List (Address × ChainTx)} (hacc : Accepted params ctx s round)
    (h : FailuresUndisturbed params ctx s round) : FailsAsRun params ctx s round := by
  intro before item after hsplit hnone
  obtain hempty | hreads := (readsOf params ctx s item).eq_empty_or_nonempty
  · -- it reads nothing, so it does the same in every state
    have hrun := Chainname.transact_eq_none.mp (speculation_result_eq_none.mp hnone)
    refine Chainname.transact_eq_none.mpr ?_
    rw [← hrun]
    refine LocalEvm.run_congr _ _ _ _ _ _ fun a ha => ?_
    exact absurd (hempty ▸ ha : a ∈ (∅ : Finset Address)) (Finset.notMem_empty a)
  · -- the round up to it runs in step with its speculations
    have hund := h before item after hsplit hnone hreads
    have hagrees := agrees_of_undisturbed (hacc.sublist (sublist_of_split hsplit)) hund
    exact hagrees.transact_eq_none.mp hnone

/-- **Skips.** Of a round that `validate` accepts: if what leads up to the transactions that are
not executable before it is undisturbed, none of them is executable when its turn comes, and
if all its pairs are undisturbed, speculation and run skip the same transactions. Conversely,
if the one or the other holds of every EVM alike before the round, and no beneficiary's
balance is full, so does its condition. -/
theorem validated_round_skips_as_run [E : LocalEvm] (params : ChainParams)
    (ctx : ChainBlockCtx) (s : WorldState) (round : List (Address × ChainTx))
    (hvalid : validate (speculate s params ctx round) = none) :
    (FailuresUndisturbed params ctx s round → FailsAsRun params ctx s round) ∧
      (NoneFull s round →
        (∀ E', Alike E E' params ctx s round → @FailsAsRun E'.toEvm params ctx s round) →
          FailuresUndisturbed params ctx s round) ∧
      (round.Pairwise (Undisturbed params ctx s) → SkipsAsRun params ctx s round) ∧
      (NoneFull s round →
        (∀ E', Alike E E' params ctx s round → @SkipsAsRun E'.toEvm params ctx s round) →
          round.Pairwise (Undisturbed params ctx s)) := by
  have hacc : Accepted params ctx s round := validate_speculate.mp hvalid
  refine ⟨failsAsRun_of_undisturbed hacc, ?_, ?_, ?_⟩
  · intro hfull hall before item after hsplit hnone hreads
    by_contra hdist
    -- an EVM alike executes the failing transaction
    obtain ⟨E', halike, hexec⟩ := exists_repair E hacc hfull hsplit hreads hdist
    have hitem : item ∈ round := by
      rw [hsplit]
      exact List.mem_append_right _ List.mem_cons_self
    refine hexec (hall E' halike before item after hsplit ?_)
    rw [halike.speculation_eq hitem]
    exact hnone
  · intro hund before item after hsplit
    have hsub := sublist_of_split hsplit
    exact (agrees_of_undisturbed (hacc.sublist hsub) (hund.sublist hsub)).transact_eq_none
  · intro hfull hall
    by_contra hnot
    obtain ⟨E', halike, before, item, after, hsplit, hwrong⟩ := exists_detour E hacc hfull hnot
    exact hwrong (hall E' halike before item after hsplit)

/-! ### A beneficiary that is read, and a failure that is repaired -/

namespace Peek

/-- The entry of a sender that has looked at `seen`: its nonce is raised, it is given one wei,
and it notes the balance it saw in its slot zero. -/
def senderEntry (account : Option AccountState) (seen : B256) : RevmAccount where
  info :=
    { infoOf account with
      balance := B256.saturatingAdd (infoOf account).balance 1
      nonce := (infoOf account).nonce + 1 }
  code := none
  storage := Finmap.singleton 0 seen
  touched := true
  created := false
  selfdestructed := false
  loadedAsNotExisting := account.isNone

/-- The account a transaction looks at. -/
def target (tx : ChainTx) : Address := tx.kind.getD tx.signer

/-- A transaction looks at the balance of the account it calls. It is executable if that is
at least its value. -/
def peek (tx : ChainTx) (s : WorldState) : Option (ExecutionResult × EvmState) :=
  let seen := (infoOf (s.account (target tx))).balance
  if seen < tx.value then none
  else some (⟨true, tx.gasLimit, []⟩,
    Finmap.singleton tx.signer (senderEntry (s.account tx.signer) seen))

theorem peek_eq_some {tx : ChainTx} {s : WorldState} {result : ExecutionResult}
    {changes : EvmState} (h : peek tx s = some (result, changes)) :
    changes = Finmap.singleton tx.signer
      (senderEntry (s.account tx.signer) (infoOf (s.account (target tx))).balance) := by
  unfold peek at h
  dsimp only at h
  split at h
  · exact absurd h.symm (Option.some_ne_none _)
  · exact (Prod.mk.inj (Option.some.inj h)).2.symm

theorem lookup_peek {tx : ChainTx} {s : WorldState} {result : ExecutionResult}
    {changes : EvmState} {a : Address} {entry : RevmAccount}
    (h : peek tx s = some (result, changes)) (hentry : changes.lookup a = some entry) :
    a = tx.signer ∧ entry = senderEntry (s.account tx.signer)
      (infoOf (s.account (target tx))).balance := by
  rw [peek_eq_some h] at hentry
  have ha : a = tx.signer := by
    have hmem := Maps.mem_of_lookup hentry
    rwa [Finmap.mem_singleton] at hmem
  subst ha
  rw [Finmap.lookup_singleton_eq] at hentry
  exact ⟨rfl, (Option.some.inj hentry).symm⟩

scoped instance peekEvm : LocalEvm where
  transact _ ctx miner tx s :=
    (peek tx s).map fun out =>
      (out.1, rewarded s miner (expectedFee tx ctx.baseFeePerGas out.1.txGasUsed) out.2)
  loaded _ _ miner tx _ := insert miner {tx.signer, target tx}
  run _ _ _ tx s := peek tx s
  reads _ _ _ tx _ := {tx.signer, target tx}
  fee _ ctx tx result := expectedFee tx ctx.baseFeePerGas result.txGasUsed
  transact_eq _ _ _ _ _ := rfl
  loaded_eq _ _ _ _ _ _ := rfl
  run_congr _ _ _ tx s s' h := by
    have hsigner : s'.account tx.signer = s.account tx.signer := h _ (by simp)
    have htarget : s'.account (target tx) = s.account (target tx) := h _ (by simp)
    show peek tx s' = peek tx s
    unfold peek
    rw [hsigner, htarget]
  mem_reads h a ha := by
    obtain ⟨entry, hentry⟩ := Maps.mem_iff_exists_lookup.mp ha
    rw [(lookup_peek h hentry).1]
    exact Finset.mem_insert_self _ _
  absent_iff h hentry := by
    obtain ⟨rfl, rfl⟩ := lookup_peek h hentry
    rfl
  nonce_ne h hentry hflag := by
    obtain ⟨rfl, rfl⟩ := lookup_peek h hentry
    exact absurd hflag (by simp [senderEntry])

/-- A block without a base fee. -/
def ctx : ChainBlockCtx := ⟨1, 0, 0, 1000, 0⟩

/-- A transaction of `signer` that looks at `target` and pays one wei per gas. -/
def look (signer target : Address) (value : B256) : ChainTx where
  hash := 0
  signer := signer
  nonce := 0
  gasLimit := 10
  maxFeePerGas := 1
  maxPriorityFeePerGas := some 1
  kind := some target
  value := value
  input := []
  accessList := none

/-- The empty state. -/
def nothing : WorldState := ⟨∅, ∅, ∅⟩

/-- Two accounts look at themselves, for two miners. -/
def apart : List (Address × ChainTx) := [(9, look 1 1 0), (8, look 2 2 0)]

/-- The second transaction looks at the miner of the first. -/
def atMiner : List (Address × ChainTx) := [(9, look 1 1 0), (8, look 2 9 0)]

/-- The second transaction needs one wei on an account that the first leaves alone. -/
def poor : List (Address × ChainTx) := [(9, look 1 1 0), (8, look 2 3 1)]

/-- The second transaction needs one wei on the account of the first. -/
def needsOne : List (Address × ChainTx) := [(9, look 1 1 0), (8, look 2 1 1)]

end Peek

section Samples

open Peek Sample

theorem validated_round_commits_as_run_apart : CommitsAsRun params Peek.ctx nothing apart := by
  refine (validated_round_commits_as_run params Peek.ctx nothing apart ?_ ?_).1 ?_
  · decide +kernel
  · decide +kernel
  · refine List.pairwise_pair.mpr ?_
    unfold FeeUnread
    decide +kernel

/-- The balance of an earlier transaction's miner is read, and nobody notices. -/
theorem miner_read_unseen :
    validate (speculate nothing params Peek.ctx atMiner) = none ∧
      (∀ spec ∈ speculate nothing params Peek.ctx atMiner, spec.result ≠ none) ∧
      ¬ CommitsAsRun params Peek.ctx nothing atMiner := by
  refine ⟨by decide +kernel, by decide +kernel, fun h => ?_⟩
  exact absurd h.accounts (by decide +kernel)

/-- A failure that nothing repairs, and a later look at the first transaction's miner, which the
failure does not mind. -/
theorem validated_round_skips_as_run_poor :
    (speculation params Peek.ctx nothing (8, look 2 3 1)).result = none ∧
      SkipsAsRun params Peek.ctx nothing poor ∧
      FailsAsRun params Peek.ctx nothing (poor ++ [(7, look 4 9 0)]) := by
  have hnone : (speculation params Peek.ctx nothing (8, look 2 3 1)).result = none := by
    decide +kernel
  have hund : poor.Pairwise (Undisturbed params Peek.ctx nothing) := by
    refine List.pairwise_pair.mpr ?_
    rw [Undisturbed, if_pos hnone]
    intro a ha
    obtain rfl | rfl : a = 2 ∨ a = 3 := by
      have hread : a ∈ ({2, 3} : Finset Address) := ha
      rwa [Finset.mem_insert, Finset.mem_singleton] at hread
    · decide +kernel
    · decide +kernel
  refine ⟨hnone, ?_, ?_⟩
  · refine (validated_round_skips_as_run params Peek.ctx nothing poor ?_).2.2.1 hund
    decide +kernel
  · refine (validated_round_skips_as_run params Peek.ctx nothing (poor ++ [(7, look 4 9 0)]) ?_).1 ?_
    · decide +kernel
    · intro before item after hsplit hfails _
      -- only the second transaction fails
      rcases before with _ | ⟨first, _ | ⟨second, _ | ⟨third, rest⟩⟩⟩
      · obtain ⟨rfl, -⟩ := List.cons.inj hsplit
        exact absurd hfails (by decide +kernel)
      · obtain ⟨rfl, hrest⟩ := List.cons.inj hsplit
        obtain ⟨rfl, -⟩ := List.cons.inj hrest
        exact hund
      · obtain ⟨-, hrest⟩ := List.cons.inj hsplit
        obtain ⟨-, hrest⟩ := List.cons.inj hrest
        obtain ⟨rfl, -⟩ := List.cons.inj hrest
        exact absurd hfails (by decide +kernel)
      · exact absurd (congrArg List.length hsplit) (by simp [poor])

/-- An earlier transaction of the round makes a later one executable, and nobody notices. -/
theorem repaired_failure_unseen :
    validate (speculate nothing params Peek.ctx needsOne) = none ∧
      (speculation params Peek.ctx nothing (8, look 2 1 1)).result = none ∧
      ¬ FailsAsRun params Peek.ctx nothing needsOne ∧
      ¬ SkipsAsRun params Peek.ctx nothing needsOne := by
  have hnone : (speculation params Peek.ctx nothing (8, look 2 1 1)).result = none := by
    decide +kernel
  refine ⟨by decide +kernel, hnone, fun h => ?_, fun h => ?_⟩
  · have hfails := h [(9, look 1 1 0)] (8, look 2 1 1) [] rfl hnone
    exact absurd hfails (by decide +kernel)
  · have hskip := (h [(9, look 1 1 0)] (8, look 2 1 1) [] rfl).mp hnone
    exact absurd hskip (by decide +kernel)

end Samples

end Chainname
