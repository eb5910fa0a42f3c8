import Chainname.Execution.Evm

/-!
# Code by hash

Undoing a block restores accounts and leaves registered code where it is, so the code map of
a state remembers more than its accounts. An EVM that looks code up only by hashes that
accounts hold cannot tell: `CodeByHash` is that assumption, together with what makes the map
grow the way it does, that the code reported for a hash is the code of that hash.

`SameView` relates two states that look the same to such an EVM. Committing a change set
keeps them so.
-/

namespace Chainname

/-- An EVM that looks up code only by hashes held in accounts, and reports code under its
hash. `codeOf` is the code of a hash. -/
structure CodeByHash [Evm] (codeOf : B256 → Bytecode) : Prop where
  /-- The hash of the empty code is that of the empty code. -/
  empty : codeOf keccak256Empty = []
  /-- A transaction depends on accounts, recent block hashes and the code accounts hold. -/
  transact_congr : ∀ params ctx miner tx s s', s'.accounts = s.accounts →
    s'.blockHashes = s.blockHashes →
    (∀ a account, s.account a = some account →
      s'.code.lookup account.info.codeHash = s.code.lookup account.info.codeHash) →
    Evm.transact params ctx miner tx s' = Evm.transact params ctx miner tx s
  /-- Code is reported under its hash. -/
  code_eq : ∀ {params ctx miner tx s result changes a entry bytes},
    Evm.transact params ctx miner tx s = some (result, changes) →
    changes.lookup a = some entry → entry.code = some bytes → bytes = codeOf entry.info.codeHash
  /-- An account whose code is not reported keeps its code. -/
  codeHash_eq : ∀ {params ctx miner tx s result changes a entry},
    Evm.transact params ctx miner tx s = some (result, changes) →
    changes.lookup a = some entry → entry.code = none →
    entry.info.codeHash = (infoOf (s.account a)).codeHash

/-- Every hash is bound to its own code, which is not empty. -/
def Canonical (codeOf : B256 → Bytecode) (code : Map B256 Bytecode) : Prop :=
  ∀ hash bytes, code.lookup hash = some bytes → bytes = codeOf hash ∧ bytes ≠ []

/-- Code is registered under its hash, and the code of every account is registered. -/
structure WellCoded (codeOf : B256 → Bytecode) (s : WorldState) : Prop where
  canonical : Canonical codeOf s.code
  held : ∀ a account, s.account a = some account → codeOf account.info.codeHash ≠ [] →
    account.info.codeHash ∈ s.code

/-- Two states that look the same to an EVM that looks code up by hash. -/
structure SameView (codeOf : B256 → Bytecode) (s S : WorldState) : Prop where
  accounts : S.accounts = s.accounts
  blockHashes : S.blockHashes = s.blockHashes
  left : WellCoded codeOf s
  right : WellCoded codeOf S

namespace WorldState

/-- An entry of a change set that is stored as an account. -/
def stored (entry : RevmAccount) : Bool :=
  !(!entry.touched || entry.selfdestructed || (entry.info.isEmpty && entry.loadedAsNotExisting))

/-- An account after a commit is the old one, or has the information of a stored entry. -/
theorem committed_eq_some {entry : RevmAccount} {old : Option AccountState}
    {account : AccountState} (h : committed entry old = some account) :
    old = some account ∨ stored entry = true ∧ account.info = entry.info := by
  -- untouched, selfdestructed, empty, or written: only the last leaves the new account
  unfold committed at h
  unfold stored
  split at h
  · exact Or.inl h
  · next htouched =>
    split at h
    · exact absurd h.symm (Option.some_ne_none _)
    · next hdestructed =>
      split at h
      · exact absurd h.symm (Option.some_ne_none _)
      · next hempty =>
        refine Or.inr ⟨?_, ?_⟩
        · simp only [Bool.not_eq_true] at htouched hdestructed hempty
          rw [htouched, hdestructed, hempty]
          rfl
        · rw [← Option.some.inj h]

theorem mem_commitCode {entry : RevmAccount} {code : Map B256 Bytecode} {hash : B256}
    (h : hash ∈ code) : hash ∈ commitCode entry code := by
  unfold commitCode
  split
  · exact h
  · split
    · split
      · exact h
      · exact Finmap.mem_insert.mpr (Or.inr h)
    · exact h

theorem mem_commitCode_self {entry : RevmAccount} {code : Map B256 Bytecode} {bytes : Bytecode}
    (hstored : stored entry = true) (hcode : entry.code = some bytes) (hne : bytes ≠ []) :
    entry.info.codeHash ∈ commitCode entry code := by
  unfold stored at hstored
  rw [Bool.not_eq_true'] at hstored
  unfold commitCode
  rw [hstored, if_neg Bool.false_ne_true, hcode]
  dsimp only
  rw [if_neg hne]
  exact Finmap.mem_insert.mpr (Or.inl rfl)

theorem canonical_commitCode {codeOf : B256 → Bytecode} {entry : RevmAccount}
    {code : Map B256 Bytecode} (h : Canonical codeOf code)
    (hentry : ∀ bytes, entry.code = some bytes → bytes = codeOf entry.info.codeHash) :
    Canonical codeOf (commitCode entry code) := by
  unfold commitCode
  split
  · exact h
  · split
    · next bytes hcode =>
      split
      · exact h
      · -- what is registered is the code of that hash by the entry's own promise
        next hne =>
        intro hash found hl
        obtain ⟨rfl, rfl⟩ | ⟨-, hl⟩ := Maps.lookup_insert_eq_some.mp hl
        · exact ⟨hentry found hcode, hne⟩
        · exact h hash found hl
    · exact h

theorem blockHashes_commit (s : WorldState) (changes : EvmState) :
    (s.commit changes).blockHashes = s.blockHashes := by
  unfold commit
  generalize Maps.toList changes = l
  induction l generalizing s with
  | nil => rfl
  | cons change l ih => exact ih (s.commitOne change.1 change.2)

/-- Registered code stays registered. -/
theorem mem_code_foldl {l : List (Address × RevmAccount)} {s : WorldState} {hash : B256}
    (h : hash ∈ s.code) :
    hash ∈ (l.foldl (fun s change => s.commitOne change.1 change.2) s).code := by
  induction l generalizing s with
  | nil => exact h
  | cons change l ih => exact ih (mem_commitCode h)

theorem mem_code_commit {s : WorldState} {changes : EvmState} {hash : B256} (h : hash ∈ s.code) :
    hash ∈ (s.commit changes).code :=
  mem_code_foldl h

/-- The code that a stored entry reports is registered. -/
theorem mem_code_commit_self {s : WorldState} {changes : EvmState} {a : Address}
    {entry : RevmAccount} {bytes : Bytecode} (hentry : changes.lookup a = some entry)
    (hstored : stored entry = true) (hcode : entry.code = some bytes) (hne : bytes ≠ []) :
    entry.info.codeHash ∈ (s.commit changes).code := by
  unfold commit
  obtain ⟨before, after, hsplit⟩ := List.append_of_mem (Maps.mem_toList.mpr hentry)
  rw [hsplit, List.foldl_append, List.foldl_cons]
  exact mem_code_foldl (mem_commitCode_self hstored hcode hne)

theorem canonical_commit {codeOf : B256 → Bytecode} {s : WorldState} {changes : EvmState}
    (h : Canonical codeOf s.code)
    (hentries : ∀ a entry bytes, changes.lookup a = some entry → entry.code = some bytes →
      bytes = codeOf entry.info.codeHash) : Canonical codeOf (s.commit changes).code := by
  -- change by change over the listed accounts
  have hfold : ∀ (l : List (Address × RevmAccount)) (s : WorldState), Canonical codeOf s.code →
      (∀ change ∈ l, ∀ bytes, change.2.code = some bytes →
        bytes = codeOf change.2.info.codeHash) →
      Canonical codeOf (l.foldl (fun s change => s.commitOne change.1 change.2) s).code := by
    intro l
    induction l with
    | nil => exact fun s hs _ => hs
    | cons change l ih =>
      intro s hs hl
      exact ih _ (canonical_commitCode hs (hl change List.mem_cons_self))
        fun other hm => hl other (List.mem_cons_of_mem change hm)
  refine hfold _ s h fun change hm bytes => ?_
  exact hentries change.1 change.2 bytes (Maps.mem_toList.mp hm)

end WorldState

open WorldState

section View

variable [Evm] {codeOf : B256 → Bytecode}

/-- **Committing a transaction** keeps code well registered. -/
theorem WellCoded.commit (hcode : CodeByHash codeOf) {params : ChainParams} {ctx : ChainBlockCtx}
    {miner : Address} {tx : ChainTx} {s S : WorldState} {result : ExecutionResult}
    {changes : EvmState} (htx : Evm.transact params ctx miner tx s = some (result, changes))
    (haccounts : S.accounts = s.accounts) (h : WellCoded codeOf S) :
    WellCoded codeOf (S.commit changes) := by
  refine ⟨canonical_commit h.canonical fun a entry bytes => hcode.code_eq htx, ?_⟩
  intro a account haccount hne
  have hlookup := lookup_commit S changes a
  rw [show (S.commit changes).accounts.lookup a = some account from haccount] at hlookup
  cases hentry : changes.lookup a with
  | none =>
    rw [hentry] at hlookup
    exact mem_code_commit (h.held a account hlookup.symm hne)
  | some entry =>
    rw [hentry] at hlookup
    obtain hold | ⟨hstored, hinfo⟩ := committed_eq_some hlookup.symm
    · exact mem_code_commit (h.held a account hold hne)
    rw [hinfo] at hne ⊢
    cases hbytes : entry.code with
    | some bytes =>
      rw [← hcode.code_eq htx hentry hbytes] at hne
      exact mem_code_commit_self hentry hstored hbytes hne
    | none =>
      -- the account keeps its code, so it has some, and it is registered
      have hkeep := hcode.codeHash_eq htx hentry hbytes
      rw [show s.account a = S.account a from congrArg (·.lookup a) haccounts.symm] at hkeep
      rw [hkeep] at hne ⊢
      cases hold : S.account a with
      | none =>
        rw [hold] at hne
        exact absurd hcode.empty hne
      | some old =>
        rw [hold] at hne
        exact mem_code_commit (h.held a old hold hne)

omit [Evm] in
/-- The code that an account holds is registered, unless it is empty: the empty code is
registered nowhere. -/
theorem WellCoded.lookup_eq {s : WorldState} (h : WellCoded codeOf s) {a : Address}
    {account : AccountState} (haccount : s.account a = some account) :
    s.code.lookup account.info.codeHash = if codeOf account.info.codeHash = [] then none
      else some (codeOf account.info.codeHash) := by
  by_cases hempty : codeOf account.info.codeHash = []
  · rw [if_pos hempty]
    refine Option.eq_none_iff_forall_ne_some.mpr fun bytes hl => ?_
    obtain ⟨heq, hne⟩ := h.canonical _ _ hl
    exact hne (heq.trans hempty)
  · obtain ⟨bytes, hl⟩ := Maps.mem_iff_exists_lookup.mp (h.held a account haccount hempty)
    rw [if_neg hempty, hl, (h.canonical _ _ hl).1]

/-- A transaction does the same in two states that look the same. -/
theorem SameView.transact_eq (hcode : CodeByHash codeOf) {s S : WorldState}
    (h : SameView codeOf s S) (params : ChainParams) (ctx : ChainBlockCtx) (miner : Address)
    (tx : ChainTx) :
    Evm.transact params ctx miner tx S = Evm.transact params ctx miner tx s := by
  refine hcode.transact_congr params ctx miner tx s S h.accounts h.blockHashes ?_
  intro a account haccount
  have hS : S.account a = some account :=
    (congrArg (fun accounts => Finmap.lookup a accounts) h.accounts).trans haccount
  rw [h.right.lookup_eq hS, h.left.lookup_eq haccount]

/-- Committing one transaction's changes to both sides keeps them looking the same. -/
theorem SameView.commit (hcode : CodeByHash codeOf) {s S : WorldState}
    (h : SameView codeOf s S) {params : ChainParams} {ctx : ChainBlockCtx} {miner : Address}
    {tx : ChainTx} {result : ExecutionResult} {changes : EvmState}
    (htx : Evm.transact params ctx miner tx s = some (result, changes)) :
    SameView codeOf (s.commit changes) (S.commit changes) := by
  refine ⟨Finmap.ext_lookup fun a => ?_, ?_, h.left.commit hcode htx rfl,
    h.right.commit hcode htx h.accounts⟩
  · rw [lookup_commit, lookup_commit, h.accounts]
  · rw [blockHashes_commit, blockHashes_commit, h.blockHashes]

end View

end Chainname
