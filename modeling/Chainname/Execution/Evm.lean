import Chainname.Execution.State
import Chainname.Primitives.Params

/-!
# The EVM as the executor sees it

The EVM itself is a library, so it is a parameter (`Evm`): given the chain block it runs in,
the beneficiary of the transaction and the world state, it either refuses a transaction or
returns its result and a change set, and it leaves behind the set of accounts it loaded.
Everything the executor does with these is in the source and is modelled as it is there.
-/

namespace Chainname

/-- Everything the EVM needs to know about the chain block being executed, other than the
transactions themselves. -/
structure ChainBlockCtx where
  height : ℕ
  timestampSecs : ℕ
  baseFeePerGas : ℕ
  gasLimit : ℕ
  /-- Value returned by the `PREVRANDAO` opcode. -/
  prevrandao : BlockHash
  deriving DecidableEq

/-- A transaction with its sender already recovered. -/
structure ChainTx where
  hash : B256
  signer : Address
  nonce : UInt64
  gasLimit : ℕ
  maxFeePerGas : ℕ
  maxPriorityFeePerGas : Option ℕ
  /-- The account called, `none` for a contract creation. -/
  kind : Option Address
  value : B256
  input : List UInt8
  /-- Addresses of the access list entries. -/
  accessList : Option (List Address)
  deriving DecidableEq

/-- A log record. -/
structure Log where
  address : Address
  topics : List B256
  data : List UInt8
  deriving DecidableEq

/-- What an executed transaction reports. -/
structure ExecutionResult where
  success : Bool
  txGasUsed : ℕ
  logs : List Log
  deriving DecidableEq

/-- The EVM: a deterministic function of the chain block, the beneficiary, the transaction
and the world state. -/
class Evm where
  /-- The result and the change set, or `none` when the transaction is not executable. -/
  transact : ChainParams → ChainBlockCtx → Address → ChainTx → WorldState →
    Option (ExecutionResult × EvmState)
  /-- The accounts loaded from the database. -/
  loaded : ChainParams → ChainBlockCtx → Address → ChainTx → WorldState → Finset Address

end Chainname
