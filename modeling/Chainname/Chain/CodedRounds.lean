import Chainname.Chain.RoundSoundness
import Chainname.Execution.CodeByHash

/-!
# Rounds of an EVM that looks code up

The results about rounds are for an EVM whose runs depend on accounts (`LocalEvm`). An EVM
that looks the code of an account up by its hash, and asks for recent block hashes, is one of
them in disguise (`CodedEvm.settled`): as long as code is well registered, what it finds under
a hash that an account holds is the code of that hash, and a round does not touch the block
hashes. Every state that a round goes through is such a state, so the results carry over.
-/

namespace Chainname

/-- An EVM whose runs depend on the accounts they read, on the code of these accounts, looked
up by hash, and on the recent block hashes. -/
class CodedEvm extends Evm where
  /-- The code of a hash. -/
  codeOf : B256 → Bytecode
  byHash : CodeByHash codeOf
  run : ChainParams → ChainBlockCtx → Address → ChainTx → WorldState →
    Option (ExecutionResult × EvmState)
  reads : ChainParams → ChainBlockCtx → Address → ChainTx → WorldState → Finset Address
  fee : ChainParams → ChainBlockCtx → ChainTx → ExecutionResult → B256
  transact_eq : ∀ params ctx miner tx s, transact params ctx miner tx s =
    (run params ctx miner tx s).map fun out =>
      (out.1, rewarded s miner (fee params ctx tx out.1) out.2)
  loaded_eq : ∀ params ctx miner tx s, run params ctx miner tx s ≠ none →
    loaded params ctx miner tx s = insert miner (reads params ctx miner tx s)
  /-- A run depends on the accounts it reads, their code and the block hashes. -/
  run_congr : ∀ params ctx miner tx s s',
    (∀ a ∈ reads params ctx miner tx s, s'.account a = s.account a) →
    (∀ a ∈ reads params ctx miner tx s, ∀ account, s.account a = some account →
      s'.code.lookup account.info.codeHash = s.code.lookup account.info.codeHash) →
    s'.blockHashes = s.blockHashes → run params ctx miner tx s' = run params ctx miner tx s
  /-- What a run reads depends on the same. -/
  reads_congr : ∀ params ctx miner tx s s', SameView codeOf s s' →
    reads params ctx miner tx s' = reads params ctx miner tx s
  mem_reads : ∀ {params ctx miner tx s result changes},
    run params ctx miner tx s = some (result, changes) →
      ∀ a ∈ changes, a ∈ reads params ctx miner tx s
  absent_iff : ∀ {params ctx miner tx s result changes a entry},
    run params ctx miner tx s = some (result, changes) → changes.lookup a = some entry →
      entry.loadedAsNotExisting = (s.account a).isNone
  nonce_ne : ∀ {params ctx miner tx s result changes a entry},
    run params ctx miner tx s = some (result, changes) → changes.lookup a = some entry →
      entry.created = true ∨ entry.selfdestructed = true →
        entry.info.nonce ≠ (infoOf (s.account a)).nonce

/-! ### Settling a state -/

/-- The code that accounts hold, under its hash. -/
def heldCode (codeOf : B256 → Bytecode) (accounts : Map Address AccountState) :
    Map B256 Bytecode :=
  (Maps.toList accounts).foldl
    (fun code account =>
      if codeOf account.2.info.codeHash = [] then code
      else code.insert account.2.info.codeHash (codeOf account.2.info.codeHash)) ∅

/-- The state with the code its accounts hold and these block hashes. -/
def settle (codeOf : B256 → Bytecode) (hashes : Map ℕ B256) (s : WorldState) : WorldState where
  accounts := s.accounts
  code := heldCode codeOf s.accounts
  blockHashes := hashes

section Settle

variable {codeOf : B256 → Bytecode} {hashes : Map ℕ B256} {s : WorldState}

/-- Registering the code of more accounts keeps the map canonical and drops nothing. -/
theorem foldl_heldCode (l : List (Address × AccountState)) {code : Map B256 Bytecode}
    (h : Canonical codeOf code) :
    Canonical codeOf (l.foldl (fun code account =>
        if codeOf account.2.info.codeHash = [] then code
        else code.insert account.2.info.codeHash (codeOf account.2.info.codeHash)) code) ∧
      ∀ hash, (hash ∈ code ∨ codeOf hash ≠ [] ∧ ∃ account ∈ l, account.2.info.codeHash = hash) →
        hash ∈ l.foldl (fun code account =>
          if codeOf account.2.info.codeHash = [] then code
          else code.insert account.2.info.codeHash (codeOf account.2.info.codeHash)) code := by
  -- the accounts still to be read, the table built so far canonical
  induction l generalizing code with
  | nil => exact ⟨h, fun hash hmem => hmem.resolve_right fun ⟨_, _, hm, _⟩ => List.not_mem_nil hm⟩
  | cons account l ih =>
    rw [List.foldl_cons]
    by_cases hempty : codeOf account.2.info.codeHash = []
    · rw [if_pos hempty]
      refine ⟨(ih h).1, fun hash hmem => (ih h).2 hash ?_⟩
      obtain hmem | ⟨hne, other, hm, rfl⟩ := hmem
      · exact Or.inl hmem
      · -- an account without code adds nothing, so the hash is of a later one
        obtain rfl | hm := List.mem_cons.mp hm
        · exact absurd hempty hne
        · exact Or.inr ⟨hne, other, hm, rfl⟩
    · -- an account with code adds its own entry, under its own hash
      rw [if_neg hempty]
      have hcanonical : Canonical codeOf
          (code.insert account.2.info.codeHash (codeOf account.2.info.codeHash)) := by
        intro hash bytes hl
        obtain ⟨rfl, rfl⟩ | ⟨-, hl⟩ := Maps.lookup_insert_eq_some.mp hl
        · exact ⟨rfl, hempty⟩
        · exact h hash bytes hl
      refine ⟨(ih hcanonical).1, fun hash hmem => (ih hcanonical).2 hash ?_⟩
      obtain hmem | ⟨hne, other, hm, rfl⟩ := hmem
      · exact Or.inl (Finmap.mem_insert.mpr (Or.inr hmem))
      · obtain rfl | hm := List.mem_cons.mp hm
        · exact Or.inl (Finmap.mem_insert.mpr (Or.inl rfl))
        · exact Or.inr ⟨hne, other, hm, rfl⟩

/-- A settled state is well coded. -/
theorem wellCoded_settle : WellCoded codeOf (settle codeOf hashes s) := by
  have hempty : Canonical codeOf ∅ := fun hash bytes hl => absurd hl.symm (by simp)
  have hfold := foldl_heldCode (Maps.toList s.accounts) hempty
  refine ⟨hfold.1, fun a account haccount hne => hfold.2 _ (Or.inr ⟨hne, (a, account), ?_, rfl⟩)⟩
  exact Maps.mem_toList.mpr haccount

/-- A well coded state looks like its settled one. -/
theorem sameView_settle (h : WellCoded codeOf s) (hhashes : s.blockHashes = hashes) :
    SameView codeOf s (settle codeOf hashes s) :=
  ⟨rfl, hhashes.symm, h, wellCoded_settle⟩

end Settle

/-! ### The EVM on settled states -/

section Settled

/-- The EVM that settles a state before it runs in it. -/
@[reducible] def CodedEvm.settledEvm (E : CodedEvm) (hashes : Map ℕ B256) : Evm where
  transact params ctx miner tx s := E.transact params ctx miner tx (settle E.codeOf hashes s)
  loaded params ctx miner tx s := E.loaded params ctx miner tx (settle E.codeOf hashes s)

/-- **It depends on accounts only.** The code of an account is settled by its hash. -/
@[reducible] def CodedEvm.settled (E : CodedEvm) (hashes : Map ℕ B256) : LocalEvm where
  toEvm := E.settledEvm hashes
  run params ctx miner tx s := E.run params ctx miner tx (settle E.codeOf hashes s)
  reads params ctx miner tx s := E.reads params ctx miner tx (settle E.codeOf hashes s)
  fee := E.fee
  transact_eq params ctx miner tx s := E.transact_eq params ctx miner tx _
  loaded_eq params ctx miner tx s := E.loaded_eq params ctx miner tx _
  run_congr params ctx miner tx s s' h := by
    refine E.run_congr params ctx miner tx _ _ h (fun a ha account haccount => ?_) rfl
    have haccount' : (settle E.codeOf hashes s').account a = some account := (h a ha).trans haccount
    rw [wellCoded_settle.lookup_eq haccount', wellCoded_settle.lookup_eq haccount]
  mem_reads h := E.mem_reads h
  absent_iff {params ctx miner tx s result changes a entry} h hentry := by
    show entry.loadedAsNotExisting = ((settle E.codeOf hashes s).account a).isNone
    exact E.absent_iff h hentry
  nonce_ne {params ctx miner tx s result changes a entry} h hentry hflag := by
    show entry.info.nonce ≠ (infoOf ((settle E.codeOf hashes s).account a)).nonce
    exact E.nonce_ne h hentry hflag

variable {E : CodedEvm} {hashes : Map ℕ B256} {params : ChainParams} {ctx : ChainBlockCtx} {s : WorldState}

theorem transact_settled (h : WellCoded E.codeOf s) (hhashes : s.blockHashes = hashes)
    (item : Address × ChainTx) :
    (E.settledEvm hashes).transact params ctx item.1 item.2 s
      = E.transact params ctx item.1 item.2 s :=
  (sameView_settle h hhashes).transact_eq E.byHash params ctx item.1 item.2

/-- The run without the reward is the same on the settled state, too. -/
theorem run_settled (h : WellCoded E.codeOf s) (hhashes : s.blockHashes = hashes)
    (item : Address × ChainTx) :
    (E.settled hashes).run params ctx item.1 item.2 s = E.run params ctx item.1 item.2 s := by
  have hview := sameView_settle h hhashes
  refine E.run_congr params ctx item.1 item.2 s (settle E.codeOf hashes s) (fun _ _ => rfl) ?_
    hview.blockHashes
  intro a _ account haccount
  rw [hview.right.lookup_eq haccount, hview.left.lookup_eq haccount]

theorem readsOf_settled (h : WellCoded E.codeOf s) (hhashes : s.blockHashes = hashes)
    (item : Address × ChainTx) :
    @readsOf (E.settled hashes) params ctx s item = E.reads params ctx item.1 item.2 s :=
  E.reads_congr params ctx item.1 item.2 s _ (sameView_settle h hhashes)

theorem speculation_settled (h : WellCoded E.codeOf s) (hhashes : s.blockHashes = hashes)
    (item : Address × ChainTx) :
    @speculation (E.settledEvm hashes) params ctx s item
      = @speculation E.toEvm params ctx s item := by
  unfold speculation speculateOne
  rw [transact_settled h hhashes]
  cases htx : E.transact params ctx item.1 item.2 s with
  | none => rfl
  | some out =>
    -- what an executed transaction loads is what it reads, and its beneficiary
    have hrun : E.run params ctx item.1 item.2 s ≠ none := by
      intro hnone
      rw [E.transact_eq, hnone] at htx
      exact Option.some_ne_none _ htx.symm
    have hloaded : (E.settledEvm hashes).loaded params ctx item.1 item.2 s
        = E.loaded params ctx item.1 item.2 s := by
      rw [E.loaded_eq params ctx item.1 item.2 s hrun,
        (E.settled hashes).loaded_eq params ctx item.1 item.2 s
          (by rw [run_settled h hhashes]; exact hrun)]
      exact congrArg (insert item.1) (readsOf_settled h hhashes item)
    rw [hloaded]

/-- Every state that a round goes through is well coded and has the block hashes of the
first. -/
theorem wellCoded_runRound (h : WellCoded E.codeOf s) (hhashes : s.blockHashes = hashes)
    (round : List (Address × ChainTx)) :
    WellCoded E.codeOf (@runRound E.toEvm params ctx s round).1 ∧
      (@runRound E.toEvm params ctx s round).1.blockHashes = hashes := by
  -- a skipped transaction changes nothing; a commit keeps both the coding and the hashes
  induction round generalizing s with
  | nil => exact ⟨h, hhashes⟩
  | cons item round ih =>
    cases htx : E.transact params ctx item.1 item.2 s with
    | none =>
      rw [@runRound_cons_none E.toEvm _ _ _ _ htx]
      exact ih h hhashes
    | some out =>
      obtain ⟨result, changes⟩ := out
      rw [@runRound_cons_some E.toEvm _ _ _ _ _ htx]
      refine ih (h.commit E.byHash htx rfl) ?_
      rw [WorldState.blockHashes_commit, hhashes]

/-- **A round runs the same** on settled states. -/
theorem runRound_settled (h : WellCoded E.codeOf s) (hhashes : s.blockHashes = hashes)
    (round : List (Address × ChainTx)) :
    @runRound (E.settledEvm hashes) params ctx s round = @runRound E.toEvm params ctx s round := by
  -- step for step: in a well coded state the two EVMs answer alike
  induction round generalizing s with
  | nil => rfl
  | cons item round ih =>
    have hsame := @transact_settled E hashes params ctx s h hhashes item
    cases htx : E.transact params ctx item.1 item.2 s with
    | none =>
      rw [@runRound_cons_none E.toEvm _ _ _ _ htx,
        @runRound_cons_none (E.settledEvm hashes) _ _ _ _ (hsame.trans htx), ih h hhashes]
    | some out =>
      obtain ⟨result, changes⟩ := out
      have hcoded : WellCoded E.codeOf (s.commit changes) := h.commit E.byHash htx rfl
      have hkeep : (s.commit changes).blockHashes = hashes := by
        rw [WorldState.blockHashes_commit, hhashes]
      rw [@runRound_cons_some E.toEvm _ _ _ _ _ htx,
        @runRound_cons_some (E.settledEvm hashes) _ _ _ _ _ (hsame.trans htx), ih hcoded hkeep]

end Settled

/-! ### The results about rounds -/

section Rounds

variable [E : CodedEvm] {params : ChainParams} {ctx : ChainBlockCtx} {s : WorldState}
  {round : List (Address × ChainTx)}

theorem accepted_settled (h : WellCoded E.codeOf s) (hacc : Accepted params ctx s round) :
    @Accepted (E.settledEvm s.blockHashes) params ctx s round := by
  have hspec : @speculation (E.settledEvm s.blockHashes) params ctx s
      = speculation params ctx s := funext fun item => speculation_settled h rfl item
  refine @Accepted.mk (E.settledEvm s.blockHashes) params ctx s round ?_ ?_
  · rw [hspec]
    exact hacc.untouched
  · rw [hspec]
    exact hacc.independent

theorem commitAll_settled (h : WellCoded E.codeOf s) :
    @commitAll (E.settledEvm s.blockHashes) params ctx s round = commitAll params ctx s round := by
  have hspec : @speculation (E.settledEvm s.blockHashes) params ctx s
      = speculation params ctx s := funext fun item => speculation_settled h rfl item
  rw [@commitAll_eq (E.settledEvm s.blockHashes), commitAll_eq]
  unfold commitItems
  rw [hspec]

/-- **An EVM that looks code up: commits.** A round that `validate` accepts, all of whose
transactions are executable before it, is committed as it is run, if no transaction reads the
beneficiary that an earlier one pays. -/
theorem coded_round_commits_as_run (h : WellCoded E.codeOf s)
    (hvalid : validate (speculate s params ctx round) = none)
    (hexec : ∀ item ∈ round, (speculation params ctx s item).result ≠ none)
    (hunread : round.Pairwise fun earlier later =>
      (speculation params ctx s earlier).feeCredit ≠ 0 →
        earlier.1 ∉ E.reads params ctx later.1 later.2 s) :
    CommitsAsRun params ctx s round := by
  have hacc := accepted_settled h (validate_speculate.mp hvalid)
  -- the pair of the settled EVM: nothing failed, so the condition is the one on fees
  have hund : round.Pairwise (@Undisturbed (E.settled s.blockHashes) params ctx s) := by
    refine hunread.imp_of_mem fun {earlier later} _ hlater hpair => ?_
    unfold Undisturbed FeeUnread
    rw [speculation_settled h rfl, speculation_settled h rfl, if_neg (hexec later hlater),
      readsOf_settled h rfl]
    exact hpair
  -- the settled EVM is local, so its round commits as run; its run is ours
  have hcommit := @commitsAsRun_of_undisturbed (E.settled s.blockHashes) _ _ _ _ hacc hund
  refine ⟨?_, ?_⟩
  · rw [← commitAll_settled h, ← runRound_settled h rfl]
    exact @CommitsAsRun.accounts (E.settledEvm s.blockHashes) _ _ _ _ hcommit
  · rw [← commitAll_settled h, ← runRound_settled h rfl]
    exact @CommitsAsRun.results (E.settledEvm s.blockHashes) _ _ _ _ hcommit

/-- **An EVM that looks code up: failures.** If what leads up to the failing transactions of an
accepted round is undisturbed, they fail in the run. -/
theorem coded_round_fails_as_run (h : WellCoded E.codeOf s)
    (hvalid : validate (speculate s params ctx round) = none)
    (hund : @FailuresUndisturbed (E.settled s.blockHashes) params ctx s round) :
    FailsAsRun params ctx s round := by
  have hacc := accepted_settled h (validate_speculate.mp hvalid)
  have hfails := @failsAsRun_of_undisturbed (E.settled s.blockHashes) _ _ _ _ hacc hund
  intro before item after hsplit hnone
  have hcoded := hfails before item after hsplit (by rw [speculation_settled h rfl]; exact hnone)
  obtain ⟨hbefore, hhashes⟩ := @wellCoded_runRound E s.blockHashes params ctx s h rfl before
  rw [runRound_settled h rfl, transact_settled hbefore hhashes] at hcoded
  exact hcoded

end Rounds

end Chainname
