import Mathlib.Algebra.Order.Ring.Nat
import Mathlib.Order.Fin.Basic

/-!
# Block headers and identities

Hashes and addresses are fixed-width big-endian byte strings, compared byte by byte,
which is the order of the numbers they spell: `B256` and `Address` are bounded naturals.

A block's identity is `keccak256(rlp(header))`. The hash function is a parameter
(`HeaderHash`): nothing in the consensus rules looks inside it.
-/

namespace Chainname

/-- A 256-bit hash. -/
abbrev B256 := Fin (2 ^ 256)

/-- Identity of a block. -/
abbrev BlockHash := B256

/-- A 160-bit account address. -/
abbrev Address := Fin (2 ^ 160)

/-- Both widths have a zero. -/
instance neZeroB256 : NeZero (2 ^ 256) := ⟨by decide⟩

instance neZeroAddress : NeZero (2 ^ 160) := ⟨by decide⟩

/-- Arithmetic on 256-bit unsigned integers, which the code saturates. -/
def U256.max : ℕ := 2 ^ 256 - 1

/-- `saturating_add` on 256-bit unsigned integers. -/
def U256.saturatingAdd (a b : ℕ) : ℕ := min (a + b) U256.max

theorem U256.max_add_one : U256.max + 1 = 2 ^ 256 := rfl

theorem U256.two_pow_le_max {n : ℕ} (h : n < 256) : 2 ^ n ≤ U256.max :=
  Nat.le_of_lt_succ (Nat.pow_lt_pow_right (Nat.lt_succ_self 1) h)

/-- A block header. -/
structure Header where
  /-- Header format version. -/
  version : UInt16
  /-- Parent block hashes. No parent is privileged: the selected parent is derived from
  blue work, never declared. -/
  parents : List BlockHash
  /-- Block timestamp, milliseconds since the Unix epoch. -/
  timestampMs : UInt64
  /-- Compact difficulty target. -/
  bits : UInt32
  /-- Proof-of-work nonce. -/
  nonce : UInt64
  /-- Address credited with the priority fees of the transactions this block carries. -/
  miner : Address
  /-- Merkle root over this block's own transaction list. -/
  txsRoot : B256
  /-- Selected-chain height the three `deferred` results below describe. -/
  deferredHeight : UInt64
  deferredStateRoot : B256
  deferredReceiptsRoot : B256
  deferredGasUsed : UInt64
  deriving DecidableEq

/-- The root of a trie with nothing in it. -/
def emptyRootHash : B256 := 0x56e81f171bcc55a6ff8345e692c0f86e5b48e01b996cadc001622fb5e363b421

/-- The identity hash of headers, a parameter of the whole model. -/
class HeaderHash where
  hash : Header → BlockHash

/-- This header's identity. -/
def Header.hash [HeaderHash] (header : Header) : BlockHash := HeaderHash.hash header

end Chainname
