import Chainname.Execution.Commit
import Chainname.Library.Runs

/-!
# Genesis state

A genesis allocation lists accounts with a balance, a nonce, code and storage. `loadGenesis` puts
each of them into an empty state, also one with nothing in it: such an account is there from the
start, and a commit does not remove it when it is touched (`empty_allocation_stays`).

Zero slots are not stored, and no sequence of commits ever stores one. Commits that touch no empty
account but a new one are exact, one after the other (`commits_exact_from_genesis`).
-/

namespace Chainname

/-- The code hash, which is library code. -/
class CodeHash where
  hashSlow : Bytecode → B256

/-- An account of a genesis allocation. -/
structure GenesisAccount where
  balance : B256
  nonce : Option UInt64
  code : Option Bytecode
  storage : Option (Map B256 B256)
  deriving DecidableEq

namespace GenesisAccount

/-- The storage of a genesis account: zero slots are not stored. -/
def slots (account : GenesisAccount) : Map B256 B256 :=
  account.storage.elim ∅ fun slots =>
    (Maps.toList slots).foldl
      (fun storage slot => if slot.2 ≠ 0 then storage.insert slot.1 slot.2 else storage) ∅

/-- The code of a genesis account, `none` if it is empty. -/
def bytecode (account : GenesisAccount) : Option Bytecode :=
  account.code.filter fun bytes => bytes ≠ []

/-- The account as it is stored. -/
def state [CodeHash] (account : GenesisAccount) : AccountState where
  info :=
    { balance := account.balance
      nonce := account.nonce.getD 0
      codeHash := account.bytecode.elim keccak256Empty CodeHash.hashSlow }
  storage := account.slots

end GenesisAccount

/-- Reasons genesis could not be loaded. -/
inductive GenesisError where
  | invalid (reason : String)
  deriving DecidableEq

namespace WorldState

/-- An empty state. -/
def new : WorldState := ⟨∅, ∅, ∅⟩

section Load

variable [CodeHash]

/-- Registers contract code so it can be resolved by hash. -/
def insertCode (s : WorldState) (code : Bytecode) : WorldState :=
  { s with code := s.code.insert (CodeHash.hashSlow code) code }

/-- One turn of the loop of `load_genesis`. -/
def allocate (s : WorldState) (entry : Address × GenesisAccount) : WorldState :=
  (entry.2.bytecode.elim s s.insertCode).insertAccount entry.1 entry.2.state

/-- Builds a state from a genesis allocation. -/
def loadGenesis (alloc : Map Address GenesisAccount) : Except GenesisError WorldState :=
  .ok ((Maps.toList alloc).foldl allocate new)

end Load

end WorldState

namespace GenesisAccount

/-- **One slot of a genesis account.** -/
theorem lookup_slots (account : GenesisAccount) (slot : B256) :
    account.slots.lookup slot
      = (account.storage.bind (·.lookup slot)).filter fun value => value ≠ 0 := by
  unfold slots
  cases account.storage with
  | none => rfl
  | some slots =>
    -- entry by entry: a zero slot is left out, another one written
    have hread := Maps.foldl_toList_get (fun (storage : Map B256 B256) slot => storage.lookup slot)
      (f := fun storage entry => if entry.2 ≠ 0 then storage.insert entry.1 entry.2 else storage)
      (fun value old => if value ≠ 0 then some value else old) ?_ ?_ slots ∅ slot
    · refine hread.trans ?_
      rw [Option.bind_some]
      cases slots.lookup slot with
      | none => rfl
      | some value =>
        rw [Option.elim_some, Option.filter_some]
        by_cases hvalue : value = 0
        · simp [hvalue]
        · simp [hvalue]
    · intro storage slot value
      dsimp only
      split
      · exact Finmap.lookup_insert _
      · rfl
    · intro storage slot other value hne
      dsimp only
      split
      · exact Finmap.lookup_insert_of_ne _ hne
      · rfl

theorem lookup_slots_ne_zero (account : GenesisAccount) (slot : B256) :
    account.slots.lookup slot ≠ some 0 := by
  rw [lookup_slots]
  intro h
  exact absurd (Option.filter_eq_some_iff.mp h).2 (by decide)

end GenesisAccount

namespace WorldState

section Load

variable [CodeHash] {alloc : Map Address GenesisAccount} {s : WorldState}

theorem accounts_allocate (s : WorldState) (entry : Address × GenesisAccount) :
    (s.allocate entry).accounts = s.accounts.insert entry.1 entry.2.state := by
  unfold allocate insertAccount
  cases entry.2.bytecode with
  | none => rfl
  | some code => rfl

/-- **The accounts of a genesis state** are those of the allocation. -/
theorem account_loadGenesis (h : loadGenesis alloc = .ok s) (a : Address) :
    s.account a = (alloc.lookup a).map GenesisAccount.state := by
  obtain rfl := Except.ok.inj h
  -- each allocation writes its own account and no other
  have hread := Maps.foldl_toList_get account (fun entry _ => some (GenesisAccount.state entry))
    (f := allocate) ?_ ?_ alloc new a
  · refine hread.trans ?_
    cases alloc.lookup a with
    | none => rfl
    | some entry => rfl
  · intro s a entry
    unfold account
    rw [accounts_allocate]
    exact Finmap.lookup_insert _
  · intro s a b entry hab
    unfold account
    rw [accounts_allocate]
    exact Finmap.lookup_insert_of_ne _ hab

theorem noZeroSlots_loadGenesis (h : loadGenesis alloc = .ok s) (a : Address) :
    NoZeroSlots (s.account a) := by
  intro state slot hstate
  rw [account_loadGenesis h] at hstate
  obtain ⟨entry, -, rfl⟩ := Option.map_eq_some_iff.mp hstate
  exact entry.lookup_slots_ne_zero slot

/-- **A run of commits from genesis** is exact at every step if each of them touches no empty account
but a new one, and never stores a zero slot. -/
theorem commits_exact_from_genesis (h : loadGenesis alloc = .ok s) {commits : List EvmState}
    (hnew : ∀ changes ∈ commits, EmptyOnlyIfNew changes) :
    Runs.Each commit (fun s changes => CommitsExactly s changes (s.commit changes)) s commits ∧
      Runs.Throughout commit (fun s => ∀ a, NoZeroSlots (s.account a)) s commits := by
  refine ⟨Runs.each_of_mem (fun s changes hmem => ?_) s, ?_⟩
  · exact commitsExactly_of_emptyOnlyIfNew (List.Perm.refl _) (hnew changes hmem)
  · refine Runs.throughout_of_step (fun s changes hs a => ?_) fun a => noZeroSlots_loadGenesis h a
    exact noZeroSlots_commitAll (List.Perm.refl _) (hs a)

end Load

/-! ### An empty account -/

namespace EmptyAccount

/-- A code hash for allocations without code. -/
scoped instance noCodeHash : CodeHash := ⟨fun _ => keccak256Empty⟩

/-- An allocation of nothing to account 7. -/
def emptyAllocation : Map Address GenesisAccount := Finmap.singleton 7 ⟨0, none, none, none⟩

/-- Account 7 as it is reported after a call that sends it nothing. -/
def calledEmpty : EvmState :=
  Finmap.singleton 7
    { info := .default
      code := none
      storage := ∅
      touched := true
      created := false
      selfdestructed := false
      loadedAsNotExisting := false }

/-- The empty account of a genesis allocation is still there after it has been touched. -/
theorem empty_allocation_stays : ∃ s, loadGenesis emptyAllocation = .ok s ∧
    ¬ CommitsExactly s calledEmpty (s.commit calledEmpty) := by
  refine ⟨_, rfl, fun h => ?_⟩
  have hentry : calledEmpty.lookup 7 = some _ := Finmap.lookup_singleton_eq
  have hgone := h.vanished 7 _ hentry rfl (Or.inr (by decide))
  revert hgone
  decide +kernel

end EmptyAccount

end WorldState

end Chainname
