import Chainname.Chain.LocalEvm

/-!
# Undisturbed rounds

`validate` compares read and write sets, but two things are missing from them: a fee that
was taken out of a change set is not in the write set of its transaction, and a transaction
that was not executable has no read set. `Undisturbed` says of two transactions what is left
to ask: the later one, if executable, does not read the beneficiary of the earlier one's
fee; if not, it reads nothing that the earlier one changes.

In an accepted round whose pairs are undisturbed every transaction reads, when its turn
comes, what it read before the round, apart from its own beneficiary (`agrees_of_undisturbed`,
by induction on the prefixes of the round).
-/

namespace Chainname

/-- Committing the round leaves the accounts, and the results, of running it. -/
structure CommitsAsRun [Evm] (params : ChainParams) (ctx : ChainBlockCtx) (s : WorldState)
    (round : List (Address × ChainTx)) : Prop where
  accounts : (commitAll params ctx s round).1.accounts = (runRound params ctx s round).1.accounts
  results : (commitAll params ctx s round).2 = (runRound params ctx s round).2

section Undisturbed

variable [LocalEvm] (params : ChainParams) (ctx : ChainBlockCtx)

/-- What the run of a transaction reads before the round, the reward left out. -/
def readsOf (s : WorldState) (item : Address × ChainTx) : Finset Address :=
  LocalEvm.reads params ctx item.1 item.2 s

/-- A transaction alone, executed before the round. -/
def alone (s : WorldState) (item : Address × ChainTx) : WorldState :=
  (runRound params ctx s [item]).1

/-- The earlier transaction's fee goes to an account that the later one does not read. -/
def FeeUnread (s : WorldState) (earlier later : Address × ChainTx) : Prop :=
  (speculation params ctx s earlier).feeCredit ≠ 0 → earlier.1 ∉ readsOf params ctx s later

/-- What `validate` does not see of two transactions, the earlier first, is harmless. -/
def Undisturbed (s : WorldState) (earlier later : Address × ChainTx) : Prop :=
  if (speculation params ctx s later).result = none then
    ∀ a ∈ readsOf params ctx s later, (alone params ctx s earlier).account a = s.account a
  else FeeUnread params ctx s earlier later

/-- What a speculation says about its run when the beneficiary's entry passed for a fee. -/
structure FeeSpeculation (spec : Speculation) (s : WorldState) (item : Address × ChainTx)
    (result : ExecutionResult) (changes : EvmState) : Prop where
  result_eq : spec.result = some result
  lookup_self : spec.diff.lookup item.1 = none
  lookup_of_ne : ∀ a ≠ item.1, spec.diff.lookup a = changes.lookup a
  reads_eq : spec.reads = insert item.1 (readsOf params ctx s item)
  purelyFee : purelyFee s item.1
    (rewardedEntry (s.account item.1) (LocalEvm.fee params ctx item.2 result)
      (changes.lookup item.1)) spec.feeCredit = true

variable {params ctx}

/-! ### One speculation -/

/-- The write set is the domain of the change set that is committed. -/
theorem writes_eq (s : WorldState) (item : Address × ChainTx) :
    (speculation params ctx s item).writes = (speculation params ctx s item).diff.keys := by
  unfold speculation speculateOne
  cases Evm.transact params ctx item.1 item.2 s with
  | none => rfl
  | some out =>
    obtain ⟨result, diff⟩ := out
    dsimp only
    cases diff.lookup item.1 with
    | none => rfl
    -- only the beneficiary may be erased, and the writes are the keys of what is left
    | some entry =>
      dsimp only
      split
      · rfl
      · rfl

theorem speculation_none {s : WorldState} {item : Address × ChainTx}
    (hrun : LocalEvm.run params ctx item.1 item.2 s = none) :
    speculation params ctx s item = ⟨0, none, ∅, ∅, ∅, 0, false⟩ := by
  unfold speculation speculateOne
  rw [transact_eq_none.mpr hrun]

theorem speculation_some {s : WorldState} {item : Address × ChainTx} {result : ExecutionResult}
    {changes : EvmState}
    (hrun : LocalEvm.run params ctx item.1 item.2 s = some (result, changes))
    (huntouched : (speculation params ctx s item).touchedBeneficiary = false) :
    FeeSpeculation params ctx (speculation params ctx s item) s item result changes := by
  have hloaded : Evm.loaded params ctx item.1 item.2 s
      = insert item.1 (readsOf params ctx s item) :=
    LocalEvm.loaded_eq params ctx item.1 item.2 s (by rw [hrun]; exact Option.some_ne_none _)
  unfold speculation speculateOne at huntouched ⊢
  rw [transact_of_run hrun] at huntouched ⊢
  dsimp only at huntouched ⊢
  rw [lookup_rewarded_self] at huntouched ⊢
  dsimp only at huntouched ⊢
  -- not touched beneath the fee: the pure case, where the entry is taken out
  split at huntouched
  · next hpure =>
    rw [if_pos hpure]
    refine ⟨rfl, Finmap.lookup_erase _ _, fun a ha => ?_, hloaded, hpure⟩
    show (Finmap.erase item.1 _).lookup a = _
    rw [Finmap.lookup_erase_ne ha, lookup_rewarded_of_ne ha]
  · exact absurd huntouched (Bool.noConfusion : true = false → False)

/-! ### The state and the credits after committing a prefix -/

/-- An address that none of some further transactions writes keeps its account until the
fees are credited. -/
theorem account_commitItems_append {s : WorldState} {round more : List (Address × ChainTx)}
    {a : Address} (h : ∀ item ∈ more, a ∉ (speculation params ctx s item).writes) :
    (commitItems params ctx s (round ++ more)).1.account a
      = (commitItems params ctx s round).1.account a := by
  -- one transaction more on the round
  induction more using List.reverseRecOn with
  | nil => rw [List.append_nil]
  | append_singleton more item ih =>
    have hmore := ih fun i hi => h i (List.mem_append_left _ hi)
    have hlookup : (speculation params ctx s item).diff.lookup a = none := by
      rw [Finmap.lookup_eq_none, ← Finmap.mem_keys, ← writes_eq]
      exact h item (List.mem_append_right _ List.mem_cons_self)
    rw [← List.append_assoc, commitItems_append_singleton]
    unfold commitSpeculation
    cases (speculation params ctx s item).result with
    -- nothing is committed for a failed one; else the commit does not reach `a`
    | none => exact hmore
    | some result =>
      show ((commitItems params ctx s (round ++ more)).1.commit _).account a = _
      rw [account_commit, hlookup]
      exact hmore

theorem account_commitItems {s : WorldState} {round : List (Address × ChainTx)} {a : Address}
    (h : ∀ item ∈ round, a ∉ (speculation params ctx s item).writes) :
    (commitItems params ctx s round).1.account a = s.account a := by
  rw [← List.nil_append round, account_commitItems_append h]
  rfl

/-- The credits of a prefix are the fees of its executable transactions, paid to their
beneficiaries. -/
theorem mem_credits {s : WorldState} {round : List (Address × ChainTx)}
    {credit : Address × B256} : credit ∈ (commitItems params ctx s round).2 ↔
      ∃ item ∈ round, (speculation params ctx s item).result ≠ none ∧
        credit = (item.1, (speculation params ctx s item).feeCredit) := by
  induction round using List.reverseRecOn with
  | nil => exact iff_of_false List.not_mem_nil fun ⟨_, h, _⟩ => List.not_mem_nil h
  | append_singleton round item ih =>
    rw [commitItems_append_singleton]
    unfold commitSpeculation
    simp only [List.mem_append, List.mem_singleton, or_and_right, exists_or, exists_eq_left]
    cases hres : (speculation params ctx s item).result with
    | none => simp [ih]
    | some result => simp [ih]

/-! ### Running in step with committing -/

/-- After a prefix of the round, running it and committing it agree, and what no transaction
of the prefix changes alone is unchanged. -/
structure Agrees (params : ChainParams) (ctx : ChainBlockCtx) (s : WorldState)
    (round : List (Address × ChainTx)) : Prop where
  account : ∀ a, (runRound params ctx s round).1.account a
    = (commitItems params ctx s round).2.foldl (creditAt a)
        ((commitItems params ctx s round).1.account a)
  results : (runRound params ctx s round).2
    = round.map fun item => (speculation params ctx s item).result
  unchanged : ∀ a, (∀ item ∈ round, (alone params ctx s item).account a = s.account a) →
    (runRound params ctx s round).1.account a = s.account a

/-- A transaction that is not executable before the round nor when its turn comes. -/
theorem Agrees.skip {s : WorldState} {round : List (Address × ChainTx)}
    {item : Address × ChainTx} (h : Agrees params ctx s round)
    (hs : LocalEvm.run params ctx item.1 item.2 s = none)
    (hS : LocalEvm.run params ctx item.1 item.2 (runRound params ctx s round).1 = none) :
    Agrees params ctx s (round ++ [item]) := by
  have hrun := runRound_append_singleton params ctx s round item
  rw [transact_eq_none.mpr hS] at hrun
  have hcommit : commitItems params ctx s (round ++ [item]) = commitItems params ctx s round := by
    rw [commitItems_append_singleton, speculation_none hs]
    rfl
  -- the round is the one before it, on both sides
  refine ⟨fun a => ?_, ?_, fun a ha => ?_⟩
  · rw [hrun, hcommit]
    exact h.account a
  · rw [hrun, List.map_append, ← h.results, List.map_singleton, speculation_none hs]
  · rw [hrun]
    exact h.unchanged a fun i hi => ha i (List.mem_append_left _ hi)

/-- A transaction whose run is the same before the round and when its turn comes, with a fee
that passes for one before the round. -/
theorem Agrees.record {s : WorldState} {round : List (Address × ChainTx)}
    {item : Address × ChainTx} {result : ExecutionResult} {changes : EvmState}
    (h : Agrees params ctx s round)
    (hs : LocalEvm.run params ctx item.1 item.2 s = some (result, changes))
    (hS : LocalEvm.run params ctx item.1 item.2 (runRound params ctx s round).1
      = some (result, changes))
    (hspec : FeeSpeculation params ctx (speculation params ctx s item) s item result changes)
    (hread : ∀ a ∈ readsOf params ctx s item,
      (commitItems params ctx s round).1.account a = s.account a ∧
        ∀ credit ∈ (commitItems params ctx s round).2, credit.1 = a → credit.2 = 0)
    (hminer : (commitItems params ctx s round).1.account item.1 = s.account item.1) :
    Agrees params ctx s (round ++ [item]) := by
  set S := (runRound params ctx s round).1 with hSdef
  set P := commitItems params ctx s round with hP
  have hrun : runRound params ctx s (round ++ [item])
      = (S.commit (rewarded S item.1 (LocalEvm.fee params ctx item.2 result) changes),
          (runRound params ctx s round).2 ++ [some result]) := by
    rw [runRound_append_singleton, transact_of_run hS]
  have halone : alone params ctx s item
      = s.commit (rewarded s item.1 (LocalEvm.fee params ctx item.2 result) changes) := by
    unfold alone runRound
    rw [transact_of_run hs]
    rfl
  have hcommit : commitItems params ctx s (round ++ [item])
      = (P.1.commit (speculation params ctx s item).diff,
          P.2 ++ [(item.1, (speculation params ctx s item).feeCredit)]) := by
    rw [commitItems_append_singleton]
    unfold commitSpeculation
    dsimp only
    rw [hspec.result_eq]
  -- what the run reads is what it read before the round
  have hsame : ∀ a ∈ readsOf params ctx s item, S.account a = s.account a := by
    intro a ha
    rw [h.account a, foldl_creditAt_eq (hread a ha).2, (hread a ha).1]
  have hchanged : ∀ a ∈ changes, S.account a = s.account a := fun a ha =>
    hsame a (LocalEvm.mem_reads hs a ha)
  refine ⟨fun a => ?_, ?_, fun a ha => ?_⟩
  · rw [hrun, hcommit, List.foldl_append]
    show (S.commit _).account a
      = creditAt a (P.2.foldl (creditAt a) ((P.1.commit _).account a)) _
    rw [account_commit, account_commit]
    by_cases ha : a = item.1
    · -- the beneficiary: its entry is a credit in disguise
      subst ha
      rw [lookup_rewarded_self, hspec.lookup_self]
      show WorldState.committed _ (S.account item.1)
        = creditAt item.1 (P.2.foldl (creditAt item.1) (P.1.account item.1)) _
      rw [← h.account item.1]
      refine committed_rewardedEntry hs hspec.purelyFee (fun hm => hchanged item.1 hm) ?_
      rw [h.account item.1, hminer]
      exact balance_le_foldl_creditAt _ _ _
    · rw [lookup_rewarded_of_ne ha, hspec.lookup_of_ne a ha,
        creditAt_of_ne (Ne.symm ha)]
      cases hentry : changes.lookup a with
      | none => exact h.account a
      | some entry =>
        -- a changed account was read: nobody wrote it before, nobody was credited at it
        have hloaded := LocalEvm.mem_reads hs a (Maps.mem_of_lookup hentry)
        show WorldState.committed entry (S.account a)
          = P.2.foldl (creditAt a) (WorldState.committed entry (P.1.account a))
        rw [foldl_creditAt_eq (hread a hloaded).2, hsame a hloaded, (hread a hloaded).1]
  · rw [hrun, List.map_append, ← h.results, List.map_singleton, hspec.result_eq]
  · -- alone, the transaction does to `a` what it does here
    have hS' : S.account a = s.account a :=
      h.unchanged a fun i hi => ha i (List.mem_append_left _ hi)
    have hitem := ha item (List.mem_append_right _ List.mem_cons_self)
    rw [hrun]
    rw [halone, account_commit] at hitem
    show (S.commit _).account a = s.account a
    rw [account_commit, hS']
    refine Eq.trans ?_ hitem
    by_cases hmine : a = item.1
    · subst hmine
      rw [lookup_rewarded_self, lookup_rewarded_self, hS']
    · rw [lookup_rewarded_of_ne hmine, lookup_rewarded_of_ne hmine]

variable (params ctx) in
/-- What an accepted round and its undisturbed pairs say about the last transaction: nobody
before it wrote what it loads. -/
theorem Accepted.last {s : WorldState} {round : List (Address × ChainTx)}
    {item : Address × ChainTx} (h : Accepted params ctx s (round ++ [item])) {a : Address}
    (ha : a ∈ (speculation params ctx s item).reads) :
    ∀ earlier ∈ round, a ∉ (speculation params ctx s earlier).writes := by
  intro earlier hm hwrites
  have hpair := (List.pairwise_append.mp h.independent).2.2 earlier hm item List.mem_cons_self
  exact Finset.disjoint_left.mp hpair.reads hwrites ha

/-- **An accepted, undisturbed round is committed as it is run.** -/
theorem agrees_of_undisturbed {s : WorldState} {round : List (Address × ChainTx)}
    (hacc : Accepted params ctx s round) (hund : round.Pairwise (Undisturbed params ctx s)) :
    Agrees params ctx s round := by
  induction round using List.reverseRecOn with
  | nil => exact ⟨fun _ => rfl, rfl, fun _ _ => rfl⟩
  | append_singleton round item ih =>
    have hagrees := ih (hacc.sublist (List.sublist_append_left _ _))
      (hund.sublist (List.sublist_append_left _ _))
    have hlast : ∀ earlier ∈ round, Undisturbed params ctx s earlier item := fun earlier hm =>
      (List.pairwise_append.mp hund).2.2 earlier hm item List.mem_cons_self
    cases hs : LocalEvm.run params ctx item.1 item.2 s with
    | none =>
      -- not executable before the round: it reads nothing that has changed
      refine hagrees.skip hs ?_
      rw [← hs]
      refine LocalEvm.run_congr _ _ _ _ _ _ fun a ha => ?_
      refine hagrees.unchanged a fun earlier hm => ?_
      have hpair := hlast earlier hm
      rw [Undisturbed, if_pos (by rw [speculation_none hs])] at hpair
      exact hpair a ha
    | some out =>
      obtain ⟨result, changes⟩ := out
      have hspec := speculation_some hs
        (hacc.untouched item (List.mem_append_right _ List.mem_cons_self))
      have hread : ∀ a ∈ readsOf params ctx s item,
          (commitItems params ctx s round).1.account a = s.account a ∧
            ∀ credit ∈ (commitItems params ctx s round).2, credit.1 = a → credit.2 = 0 := by
        intro a ha
        refine ⟨?_, ?_⟩
        · refine account_commitItems (hacc.last params ctx ?_)
          rw [hspec.reads_eq]
          exact Finset.mem_insert_of_mem ha
        · intro credit hm hcredit
          obtain ⟨earlier, hearlier, -, rfl⟩ := mem_credits.mp hm
          by_contra hne
          have hpair := hlast earlier hearlier
          rw [Undisturbed, if_neg (by rw [hspec.result_eq]; exact Option.some_ne_none _)] at hpair
          exact hpair hne (hcredit ▸ ha)
      refine hagrees.record hs ?_ hspec hread (account_commitItems (hacc.last params ctx ?_))
      · rw [← hs]
        refine LocalEvm.run_congr _ _ _ _ _ _ fun a ha => ?_
        rw [hagrees.account a, foldl_creditAt_eq (hread a ha).2, (hread a ha).1]
      · rw [hspec.reads_eq]
        exact Finset.mem_insert_self _ _

/-- An accepted, undisturbed round: accounts and results. -/
theorem commitsAsRun_of_undisturbed {s : WorldState} {round : List (Address × ChainTx)}
    (hacc : Accepted params ctx s round) (hund : round.Pairwise (Undisturbed params ctx s)) :
    CommitsAsRun params ctx s round := by
  have hagrees := agrees_of_undisturbed hacc hund
  rw [show CommitsAsRun params ctx s round ↔ _ from
    ⟨fun h => And.intro h.accounts h.results, fun h => ⟨h.1, h.2⟩⟩, commitAll_eq]
  refine ⟨Finmap.ext_lookup fun a => ?_, hagrees.results.symm⟩
  exact (account_foldl_creditOne _ _ a).trans (hagrees.account a).symm

end Undisturbed

end Chainname
