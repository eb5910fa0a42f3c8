import Chainname.Net.Message

/-!
# Test wallets

Keys are a function of an index, so every node of a simulation and every run of it agree on who is
who. Hashing, signatures and the encoding of transactions are library code.
-/

namespace Chainname.Testkit

/-- A transfer before it is signed. The access list and the input are empty. -/
structure TxEip1559 where
  chainId : ℕ
  nonce : UInt64
  gasLimit : ℕ
  maxFeePerGas : ℕ
  maxPriorityFeePerGas : ℕ
  recipient : Address
  value : UInt64
  deriving DecidableEq

/-- Keys and signatures. -/
class Signer where
  /-- The hash of an index, which is a key. -/
  key : UInt64 → B256
  address : B256 → Address
  /-- The encoding of the signed transaction. -/
  sign : B256 → TxEip1559 → Bytes

/-- A funded test account. -/
structure Wallet where
  signer : B256
  address : Address
  deriving DecidableEq

namespace Wallet

variable [Signer]

/-- Derives a wallet from an index. -/
def fromIndex (index : UInt64) : Wallet where
  signer := Signer.key index
  address := Signer.address (Signer.key index)

/-- Signs a transfer and returns it encoded, ready for the wire. -/
def signedTransfer (wallet : Wallet) (chainId : ℕ) (nonce : UInt64) (recipient : Address) (value : UInt64)
    (maxFeePerGas maxPriorityFeePerGas : ℕ) : Bytes :=
  Signer.sign wallet.signer
    { chainId := chainId
      nonce := nonce
      -- a plain transfer costs 21,000, and a call of a contract should still fit
      gasLimit := 100000
      maxFeePerGas := maxFeePerGas
      maxPriorityFeePerGas := maxPriorityFeePerGas
      recipient := recipient
      value := value }

end Wallet

end Chainname.Testkit
