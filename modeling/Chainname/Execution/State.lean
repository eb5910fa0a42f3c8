import Chainname.Library.Maps
import Chainname.Primitives.Header

/-!
# The world state

Accounts by address, contract code by hash, recent block hashes by number. Execution
writes through `commit`, which applies the EVM's account changes one address at a time:
an address that is not touched keeps its account, a self-destructed or empty new account
goes, anything else is stored with the changed slots (zero slots removed).

`lookup_commit` says what one address looks like after a commit, whatever else is in the
change set; nothing downstream unfolds the loop.
-/

namespace Chainname

/-- `saturating_add` on 256-bit words. -/
def B256.saturatingAdd (a b : B256) : B256 :=
  ⟨U256.saturatingAdd a.val b.val,
    lt_of_le_of_lt (min_le_right _ _) (Nat.pred_lt (by decide : (2 ^ 256 : ℕ) ≠ 0))⟩

/-- `saturating_mul` of a 128-bit and a 64-bit value in 256-bit words. -/
def B256.saturatingMul (a b : ℕ) : B256 :=
  ⟨min (a * b) U256.max,
    lt_of_le_of_lt (min_le_right _ _) (Nat.pred_lt (by decide : (2 ^ 256 : ℕ) ≠ 0))⟩

/-- The hash of the empty code. -/
def keccak256Empty : B256 := Fin.ofNat (2 ^ 256)
  0xc5d2460186f7233c927e7db2dcc703c0e500b653ca82273b7bfad8045d85a470

/-- Contract code. -/
abbrev Bytecode := List UInt8

/-- Nonce, balance and code hash of an account. -/
structure AccountInfo where
  balance : B256
  nonce : UInt64
  codeHash : B256
  deriving DecidableEq

/-- The information of an account that does not exist. -/
def AccountInfo.default : AccountInfo where
  balance := 0
  nonce := 0
  codeHash := keccak256Empty

/-- No code, no balance, nonce zero. -/
def AccountInfo.isEmpty (info : AccountInfo) : Bool :=
  (info.codeHash = keccak256Empty || info.codeHash = 0) && info.balance = 0 && info.nonce = 0

/-- One account's persisted form. -/
structure AccountState where
  info : AccountInfo
  storage : Map B256 B256
  deriving DecidableEq

def AccountState.default : AccountState where
  info := .default
  storage := ∅

/-- The information of an account, also of one that does not exist. -/
def infoOf (account : Option AccountState) : AccountInfo :=
  account.elim .default AccountState.info

/-- The full world state. -/
structure WorldState where
  accounts : Map Address AccountState
  /-- Contract code, keyed by code hash. -/
  code : Map B256 Bytecode
  /-- Recent block hashes, for the `BLOCKHASH` opcode. -/
  blockHashes : Map ℕ B256
  deriving DecidableEq

/-- What the EVM reports about an account it loaded. -/
structure RevmAccount where
  info : AccountInfo
  code : Option Bytecode
  /-- Present values of the slots it loaded. -/
  storage : Map B256 B256
  touched : Bool
  created : Bool
  selfdestructed : Bool
  loadedAsNotExisting : Bool
  deriving DecidableEq

/-- A change set: everything a transaction loaded. -/
abbrev EvmState := Map Address RevmAccount

namespace WorldState

/-- Reads an account, if it exists. -/
def account (s : WorldState) (address : Address) : Option AccountState := s.accounts.lookup address

/-- The nonce of an account, also of one that does not exist. -/
def nonce (s : WorldState) (address : Address) : UInt64 := (infoOf (s.account address)).nonce

/-- The balance of an account, also of one that does not exist. -/
def balance (s : WorldState) (address : Address) : B256 := (infoOf (s.account address)).balance

/-- Inserts or replaces an account wholesale. -/
def insertAccount (s : WorldState) (address : Address) (account : AccountState) : WorldState :=
  { s with accounts := s.accounts.insert address account }

/-- Removes an account. Code is content-addressed and may be shared, so it stays. -/
def removeAccount (s : WorldState) (address : Address) : WorldState :=
  { s with accounts := s.accounts.erase address }

/-- Writes slots: a zero value is an unset slot. -/
def writeStorage (storage writes : Map B256 B256) : Map B256 B256 :=
  (Maps.toList writes).foldl
    (fun storage write =>
      if write.2 = 0 then storage.erase write.1 else storage.insert write.1 write.2) storage

/-- The account an entry of a change set leaves behind, `none` for no account. -/
def committed (entry : RevmAccount) (old : Option AccountState) : Option AccountState :=
  if !entry.touched then old
  else if entry.selfdestructed then none
  else if entry.info.isEmpty && entry.loadedAsNotExisting then none
  else
    let storage := if entry.created then ∅ else (old.getD .default).storage
    some { info := entry.info, storage := writeStorage storage entry.storage }

/-- Non-empty code of an account that is stored is registered under its hash. -/
def commitCode (entry : RevmAccount) (code : Map B256 Bytecode) : Map B256 Bytecode :=
  if !entry.touched || entry.selfdestructed
      || (entry.info.isEmpty && entry.loadedAsNotExisting) then code
  else
    match entry.code with
    | some bytes => if bytes = [] then code else code.insert entry.info.codeHash bytes
    | none => code

/-- Commits the change of one account. -/
def commitOne (s : WorldState) (address : Address) (entry : RevmAccount) : WorldState where
  accounts := match committed entry (s.accounts.lookup address) with
    | some account => s.accounts.insert address account
    | none => s.accounts.erase address
  code := commitCode entry s.code
  blockHashes := s.blockHashes

/-- Commits a change set. -/
def commit (s : WorldState) (changes : EvmState) : WorldState :=
  (Maps.toList changes).foldl (fun s change => s.commitOne change.1 change.2) s

end WorldState

/-- The trie library: roots of a storage, of a state and of an ordered list. -/
class Trie where
  storageRootUnhashed : List (B256 × B256) → B256
  stateRootUnhashed : List (Address × AccountInfo × B256) → B256
  emptyRootHash : B256

/-- The root of an account's storage; zero slots are not part of the trie. -/
def AccountState.storageRoot [Trie] (account : AccountState) : B256 :=
  if account.storage = ∅ then Trie.emptyRootHash
  else Trie.storageRootUnhashed
    ((Maps.toList account.storage).filter fun slot => slot.2 ≠ 0)

/-- The state root over the whole state. -/
def WorldState.stateRoot [Trie] (s : WorldState) : B256 :=
  Trie.stateRootUnhashed
    ((Maps.toList s.accounts).map fun entry => (entry.1, entry.2.info, entry.2.storageRoot))

namespace WorldState

theorem lookup_insertAccount (s : WorldState) (a b : Address) (account : AccountState) :
    (s.insertAccount a account).accounts.lookup b =
      if b = a then some account else s.accounts.lookup b :=
  Maps.lookup_insert _ _ _ _

theorem lookup_removeAccount (s : WorldState) (a b : Address) :
    (s.removeAccount a).accounts.lookup b = if b = a then none else s.accounts.lookup b :=
  Maps.lookup_erase _ _ _

theorem lookup_commitOne (s : WorldState) (a b : Address) (entry : RevmAccount) :
    (s.commitOne a entry).accounts.lookup b =
      if b = a then committed entry (s.accounts.lookup a) else s.accounts.lookup b := by
  unfold commitOne
  cases committed entry (s.accounts.lookup a) with
  | some account => exact Maps.lookup_insert _ _ _ _
  | none => exact Maps.lookup_erase _ _ _

/-- **One address after a commit.** It depends on its own entry only. -/
theorem lookup_commit (s : WorldState) (changes : EvmState) (a : Address) :
    (s.commit changes).accounts.lookup a =
      (changes.lookup a).elim (s.accounts.lookup a) fun entry =>
        committed entry (s.accounts.lookup a) := by
  refine Maps.foldl_toList_get (fun (s : WorldState) a => s.accounts.lookup a) committed ?_ ?_
    changes s a
  · intro s a entry
    rw [lookup_commitOne, if_pos rfl]
  · intro s a b entry hab
    rw [lookup_commitOne, if_neg hab]

end WorldState

end Chainname
