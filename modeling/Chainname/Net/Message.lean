import Chainname.Library.Maps
import Chainname.Primitives.Header

/-!
# Messages and peers

The messages two nodes exchange, and what a node keeps about a connected peer: how far the
handshake has got, a score, and the blocks the peer is known to hold.

Blocks travel as headers with their transactions, which are opaque byte strings here.
-/

namespace Chainname

/-- A byte string. -/
abbrev Bytes := List UInt8

/-- Protocol version. -/
def protocolVersion : UInt32 := 1

/-- Largest number of hashes in a single inventory or request message. -/
def maxInvEntries : ℕ := 512

/-- Largest number of blocks a peer may send in one batch response. -/
def maxBlockBatch : ℕ := 128

/-- Largest number of transactions in one block body. -/
def maxTxsPerBlock : ℕ := 8192

/-- A block as it travels: a header plus its transactions. -/
structure BlockPayload where
  header : Header
  transactions : List Bytes
  deriving DecidableEq

/-- This block's hash. -/
def BlockPayload.hash [HeaderHash] (block : BlockPayload) : BlockHash := block.header.hash

/-- A protocol message. -/
inductive Message where
  /-- Handshake opener, carrying the sender's tips. -/
  | version (version : UInt32) (genesis : BlockHash) (tips : List BlockHash)
  /-- Handshake acknowledgement. -/
  | verack
  | ping (nonce : UInt64)
  | pong (nonce : UInt64)
  /-- Asks for the peer's current tips. -/
  | getTips
  | tips (hashes : List BlockHash)
  /-- Announces blocks the sender holds. -/
  | invBlocks (hashes : List BlockHash)
  /-- Requests blocks by hash. -/
  | getBlocks (hashes : List BlockHash)
  /-- Delivers blocks. -/
  | blocks (blocks : List BlockPayload)
  | invTxs (hashes : List BlockHash)
  | getTxs (hashes : List BlockHash)
  deriving DecidableEq

/-- The messages that are handled before the handshake is complete. -/
def Message.isHandshake : Message → Bool
  | .version _ _ _ => true
  | .verack => true
  | _ => false

/-! ### Peers -/

/-- A connection identifier, assigned locally. -/
abbrev PeerId := ℕ

/-- Starting score for a new peer. -/
def initialScore : ℤ := 100

/-- At or below this, the peer is disconnected. -/
def banThreshold : ℤ := 0

/-- Ceiling on the score. -/
def maxScore : ℤ := 200

/-- Things a peer can do wrong. -/
inductive Misbehaviour where
  | malformedMessage
  | wrongVersion
  | wrongGenesis
  | outOfOrder
  | invalidBlock
  | unsolicitedBlock
  | irrelevantResponse

/-- Score penalty. -/
def Misbehaviour.penalty : Misbehaviour → ℤ
  | .malformedMessage | .wrongVersion | .wrongGenesis => initialScore
  | .invalidBlock => 50
  | .outOfOrder => 25
  | .irrelevantResponse => 10
  | .unsolicitedBlock => 1

/-- How far a peer has got through the handshake. -/
inductive Handshake where
  | new
  | versionExchanged
  | ready
  deriving DecidableEq

/-- Everything known about one connected peer. -/
structure PeerState where
  id : PeerId
  handshake : Handshake
  score : ℤ
  /-- Blocks this peer is known to have, so that they are not announced to it again. -/
  knownBlocks : Finset BlockHash
  blocksDelivered : ℕ
  deriving DecidableEq

namespace PeerState

/-- A freshly connected peer. -/
def new (id : PeerId) : PeerState where
  id := id
  handshake := .new
  score := initialScore
  knownBlocks := ∅
  blocksDelivered := 0

/-- True once the handshake has completed. -/
def isReady (state : PeerState) : Bool := state.handshake = .ready

/-- Applies a penalty, and tells whether the peer should now be disconnected. The score is a
saturating 32-bit integer. -/
def penalise (state : PeerState) (what : Misbehaviour) : PeerState × Bool :=
  let score := max (state.score - what.penalty) (-2 ^ 31)
  ({ state with score := score }, score ≤ banThreshold)

/-- Credits the peer for useful work. -/
def reward (state : PeerState) (amount : ℤ) : PeerState :=
  { state with score := min (state.score + amount) maxScore }

/-- Entries of `known_blocks` held before it is dropped. -/
def knownBlocksCap : ℕ := 8192

/-- Records that the peer is known to hold a block. -/
def noteKnown (state : PeerState) (hash : BlockHash) : PeerState :=
  { state with
    knownBlocks :=
      insert hash (if knownBlocksCap ≤ state.knownBlocks.card then ∅ else state.knownBlocks) }

/-- A view of a peer that penalties, credit and noted blocks leave as it is. -/
structure Steady {γ : Type} (view : PeerState → γ) : Prop where
  noteKnown : ∀ state hash, view (state.noteKnown hash) = view state
  penalise : ∀ state what, view (state.penalise what).1 = view state
  credit : ∀ state delivered, view (({ state with blocksDelivered := delivered } :
    PeerState).reward 1) = view state

/-- Any number of blocks may be noted. -/
theorem Steady.foldl_noteKnown {γ : Type} {view : PeerState → γ} (h : Steady view)
    (hashes : List BlockHash) (state : PeerState) :
    view (hashes.foldl PeerState.noteKnown state) = view state := by
  induction hashes generalizing state with
  | nil => rfl
  | cons hash hashes ih => rw [List.foldl_cons, ih, h.noteKnown]

theorem steady_handshake : Steady PeerState.handshake :=
  ⟨fun _ _ => rfl, fun _ _ => rfl, fun _ _ => rfl⟩

theorem steady_id : Steady PeerState.id := ⟨fun _ _ => rfl, fun _ _ => rfl, fun _ _ => rfl⟩

end PeerState

end Chainname
