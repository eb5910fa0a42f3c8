import Chainname.Execution.Evm
import Chainname.Ghostdag.Ordering

/-!
# Block bodies and static access sets

Transactions are kept apart from headers, keyed by the block that carried them. The access
set of a transaction is what it declares: its sender, the account it calls, and its access
list, sorted and deduplicated.
-/

namespace Chainname

/-- Static access keys for the ordering rule. -/
structure TxAccessSet where
  keys : List Address
  deriving DecidableEq

/-- Derives the static access set of a transaction. -/
def TxAccessSet.of (tx : ChainTx) : TxAccessSet where
  keys := Maps.sortedKeys
    (({tx.signer} : Finset Address) ∪ (tx.kind.elim ∅ fun callee => {callee})
      ∪ (tx.accessList.elim ∅ List.toFinset))

instance : AccessSet TxAccessSet := ⟨TxAccessSet.keys⟩

/-- Transactions, keyed by the block that carried them. -/
abbrev BodyStore := Map BlockHash (List ChainTx)

/-- A block's transactions, none if the body is absent. -/
def BodyStore.get (bodies : BodyStore) (block : BlockHash) : List ChainTx :=
  (bodies.lookup block).getD []

theorem BodyStore.get_insert (bodies : BodyStore) (block other : BlockHash)
    (transactions : List ChainTx) : BodyStore.get (bodies.insert block transactions) other
      = if other = block then transactions else bodies.get other := by
  unfold get
  rw [Maps.lookup_insert]
  split <;> rfl

/-- A transaction of a stored body came with the body just put in, or was there before. -/
theorem BodyStore.mem_get_insert {bodies : BodyStore} {block other : BlockHash}
    {transactions : List ChainTx} {tx : ChainTx}
    (h : tx ∈ BodyStore.get (bodies.insert block transactions) other) :
    tx ∈ transactions ∨ tx ∈ bodies.get other := by
  rw [get_insert] at h
  split at h
  · exact Or.inl h
  · exact Or.inr h

end Chainname
