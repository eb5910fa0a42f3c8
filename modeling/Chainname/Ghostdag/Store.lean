import Chainname.Library.Maps
import Chainname.Library.Worklist
import Chainname.Library.TopoSort
import Chainname.Primitives.Work

/-!
# The DAG store and the GHOSTDAG colouring

Each block picks a selected parent, the parent of greatest `(blue_work, hash)`. Its merge
set is everything in its past outside the selected parent's past, sorted topologically.
Each merge-set block is coloured blue or red by the k-cluster rule, which reads counters
kept with the chain blocks.

Reachability is a memoised search: `isAncestorOf` runs in the state monad over the
memo table. The functions that ask it take the query as an argument `reach` over an
arbitrary monad, so that the same definition runs over the memoised search
(`addBlock`) and over the plain truth (in the proofs).

Loops of the source that walk selected parents are bounded by the topological height of
where they start, which strictly decreases along them; the two searches are bounded by
the number of stored blocks, as each block enters their queue once.
-/

namespace Chainname

/-- GHOSTDAG data derived for one block. -/
structure GhostdagData where
  /-- The parent with the most accumulated blue work. -/
  selectedParent : BlockHash
  /-- Number of blue blocks in this block's past, inclusive of itself. -/
  blueScore : ℕ
  /-- Accumulated proof of work over the blue set. -/
  blueWork : ℕ
  /-- Merge-set blocks coloured blue, selected parent first. -/
  mergesetBlues : List BlockHash
  /-- Merge-set blocks coloured red. -/
  mergesetReds : List BlockHash
  /-- The whole merge set in topological order, excluding the selected parent. -/
  mergesetOrdered : List BlockHash
  /-- Longest path from genesis. -/
  topologicalHeight : ℕ
  /-- For each blue in `mergesetBlues`, how many blues sit in its anticone. -/
  bluesAnticoneSizes : Map BlockHash UInt16

/-- Outcome of testing one merge-set block against the k-cluster rule. -/
inductive Colour where
  /-- Keeps the k-cluster property. -/
  | blue
  /-- Violates it. -/
  | red
  deriving DecidableEq

/-- Reasons a block could not join the DAG. -/
inductive DagError where
  /-- The block is already present. -/
  | alreadyPresent (block : BlockHash)
  /-- The block declares no parents. -/
  | noParents (block : BlockHash)
  /-- A declared parent is not in the DAG. -/
  | missingParent (block parent : BlockHash)
  /-- The merge set exceeds the configured limit. -/
  | mergesetTooLarge (block : BlockHash) (limit : ℕ)
  deriving DecidableEq

/-- Memoised `(descendant, ancestor) ↦ answer`. -/
abbrev ReachCache := Map (BlockHash × BlockHash) Bool

/-- An in-memory block DAG with GHOSTDAG data. -/
structure DagStore where
  k : UInt16
  genesis : BlockHash
  headers : Map BlockHash Header
  data : Map BlockHash GhostdagData
  /-- Child edges. -/
  children : Map BlockHash (List BlockHash)
  /-- Blocks with no children, maintained incrementally. -/
  tips : Finset BlockHash
  /-- Memoised reachability answers. -/
  reachability : ReachCache
  /-- Upper bound on merge-set size. -/
  mergesetSizeLimit : ℕ

/-- The data a store gives genesis, which is its own selected parent. -/
def genesisData (genesis : Header) (hash : BlockHash) : GhostdagData where
  selectedParent := hash
  blueScore := 0
  blueWork := headerWork genesis
  mergesetBlues := []
  mergesetReds := []
  mergesetOrdered := []
  topologicalHeight := 0
  bluesAnticoneSizes := ∅

namespace DagStore

/-- A store rooted at `genesis`. -/
def new [HeaderHash] (genesis : Header) (k : UInt16) (mergesetSizeLimit : ℕ) : DagStore where
  k := k
  genesis := genesis.hash
  headers := Finmap.singleton genesis.hash genesis
  data := Finmap.singleton genesis.hash (genesisData genesis genesis.hash)
  children := ∅
  tips := {genesis.hash}
  reachability := ∅
  mergesetSizeLimit := mergesetSizeLimit

section Read

variable (D : DagStore)

/-- Number of blocks in the DAG. -/
def len : ℕ := D.headers.keys.card

/-- A block's longest path from genesis, zero when the block is unknown. -/
def topologicalHeight (hash : BlockHash) : ℕ :=
  (D.data.lookup hash).elim 0 GhostdagData.topologicalHeight

/-- A block's accumulated blue work, zero when the block is unknown. -/
def blueWork (hash : BlockHash) : ℕ := (D.data.lookup hash).elim 0 GhostdagData.blueWork

/-- The work of a block's header, zero when the block is unknown. -/
def blockWork (hash : BlockHash) : ℕ := (D.headers.lookup hash).elim 0 headerWork

/-- Orders two blocks by `(blue_work, hash)`. -/
def compareBlocks (a b : BlockHash) : Ordering :=
  (compare (D.blueWork a) (D.blueWork b)).then (compare a b)

/-- `tips()`: the childless blocks, sorted by `(blue_work, hash)` descending. -/
def sortedTips : List BlockHash :=
  (Maps.sortedKeys D.tips).insertionSort fun a b => D.compareBlocks b a ≠ .gt

/-- The tip with the most blue work: the head of the selected parent chain. -/
def virtualSelectedParent : BlockHash := D.sortedTips.headD D.genesis

/-- The walk of `selected_parent_chain`, at most `n` blocks long. -/
def chainWalk : ℕ → BlockHash → List BlockHash
  | 0, _ => []
  | n + 1, cursor =>
    cursor :: if cursor = D.genesis then [] else
      match D.data.lookup cursor with
      | some data => chainWalk n data.selectedParent
      | none => []

/-- The selected parent chain from `tip` back to genesis, tip first. -/
def selectedParentChain (tip : BlockHash) : List BlockHash :=
  D.chainWalk (D.topologicalHeight tip + 1) tip

end Read

/-! ### Reachability -/

/-- Entries held before the cache is dropped. -/
def cacheCapacity : ℕ := 32768

/-- Caches a reachability answer, dropping the whole cache when it is full. -/
def remember (descendant ancestor : BlockHash) (answer : Bool) : StateM ReachCache Unit :=
  modify fun cache =>
    Finmap.insert (descendant, ancestor) answer
      (if cacheCapacity ≤ cache.keys.card then ∅ else cache)

/-- The breadth-first search of `is_ancestor_of`, for at most `n` blocks. A parent no
deeper than the ancestor is not followed, after it has been compared with it. -/
def search (D : DagStore) (ancestor : BlockHash) (ancestorHeight : ℕ) :
    ℕ → Finset BlockHash → List BlockHash → Bool
  | 0, _, _ => false
  | _ + 1, _, [] => false
  | n + 1, seen, current :: queue =>
    match D.headers.lookup current with
    | none => search D ancestor ancestorHeight n seen queue
    | some header =>
      if ancestor ∈ header.parents then true
      else
        let next := Worklist.push
          (header.parents.filter fun p => ancestorHeight < D.topologicalHeight p) seen queue
        search D ancestor ancestorHeight n next.1 next.2

/-- True if `ancestor` is in `descendant`'s past, or is `descendant`. -/
def isAncestorOf (D : DagStore) (ancestor descendant : BlockHash) : StateM ReachCache Bool := do
  if ancestor = descendant then pure true
  else
    let cache ← get
    match cache.lookup (descendant, ancestor) with
    | some cached => pure cached
    | none =>
      let ancestorHeight := D.topologicalHeight ancestor
      if D.topologicalHeight descendant ≤ ancestorHeight then
        remember descendant ancestor false
        pure false
      else
        let found := D.search ancestor ancestorHeight D.len {descendant} [descendant]
        remember descendant ancestor found
        pure found

/-! ### The merge set -/

/-- Picks the parent with the most blue work, breaking ties by hash. -/
def selectParent (D : DagStore) (parents : List BlockHash) : BlockHash :=
  parents.tail.foldl
    (fun best parent => if D.compareBlocks parent best = .gt then parent else best)
    (parents.headD D.genesis)

/-- Sorts a set of blocks into a deterministic topological order. -/
def topologicalSort (D : DagStore) (blocks : List BlockHash) : List BlockHash :=
  TopoSort.passes
    (fun emitted block => match D.headers.lookup block with
      | some header => header.parents.all fun p => p ∉ blocks || p ∈ emitted
      | none => true)
    blocks.length (blocks.insertionSort fun a b => D.compareBlocks a b ≠ .gt) ∅ []

section Oracle

variable {m : Type → Type} [Monad m] (reach : BlockHash → BlockHash → m Bool)

/-- The search of `ordered_mergeset`, for at most `n` blocks: whatever is not in the
selected parent's past belongs to the merge set, and its parents are looked at next. -/
def collectMergeset (D : DagStore) (hash selectedParent : BlockHash) :
    ℕ → Finset BlockHash → List BlockHash → List BlockHash → m (Except DagError (List BlockHash))
  | 0, _, _, mergeset => pure (.ok mergeset)
  | _ + 1, _, [], mergeset => pure (.ok mergeset)
  | n + 1, seen, current :: queue, mergeset => do
    let merged ← reach current selectedParent
    if merged then collectMergeset D hash selectedParent n seen queue mergeset
    else if D.mergesetSizeLimit < (mergeset ++ [current]).length then
      pure (.error (.mergesetTooLarge hash D.mergesetSizeLimit))
    else
      match D.headers.lookup current with
      | none => collectMergeset D hash selectedParent n seen queue (mergeset ++ [current])
      | some header =>
        let next := Worklist.push (header.parents.filter (· ≠ selectedParent)) seen queue
        collectMergeset D hash selectedParent n next.1 next.2 (mergeset ++ [current])

/-- `past(block) \ past(selected_parent)`, in topological order. -/
def orderedMergeset [HeaderHash] (D : DagStore) (header : Header) (selectedParent : BlockHash) :
    m (Except DagError (List BlockHash)) := do
  let start := Worklist.push (header.parents.filter (· ≠ selectedParent)) ∅ []
  let mergeset ← D.collectMergeset reach header.hash selectedParent D.len start.1 start.2 []
  pure (mergeset.map D.topologicalSort)

/-! ### Colouring -/

/-- The loop of `colour_candidate` over a list of blues whose counters are read from
`sizes`; `none` when the candidate turns out red. -/
def scanBlues (k : UInt16) (sizes : Map BlockHash UInt16) (candidate : BlockHash) :
    List BlockHash → UInt16 → List (BlockHash × UInt16) →
      m (Option (UInt16 × List (BlockHash × UInt16)))
  | [], anticone, updates => pure (some (anticone, updates))
  | blue :: blues, anticone, updates => do
    let past ← reach blue candidate
    if past then scanBlues k sizes candidate blues anticone updates
    else if k < anticone + 1 then pure none
    else
      let existing := (sizes.lookup blue).getD 0
      if k ≤ existing then pure none
      else scanBlues k sizes candidate blues (anticone + 1) (updates ++ [(blue, existing + 1)])

/-- The walk of `colour_candidate` down the selected parent chain: the blues of each
chain block are read with the counters stored at that chain block. -/
def walkChain (D : DagStore) (candidate : BlockHash) :
    ℕ → BlockHash → UInt16 → List (BlockHash × UInt16) →
      m (Option (UInt16 × List (BlockHash × UInt16)))
  | 0, _, anticone, updates => pure (some (anticone, updates))
  | n + 1, chainBlock, anticone, updates => do
    let past ← reach chainBlock candidate
    if past then pure (some (anticone, updates))
    else
      match D.data.lookup chainBlock with
      | none => pure (some (anticone, updates))
      | some chainData => do
        let scanned ← scanBlues reach D.k chainData.bluesAnticoneSizes candidate
          chainData.mergesetBlues anticone updates
        match scanned with
        | none => pure none
        | some (anticone, updates) =>
          if chainBlock = D.genesis then pure (some (anticone, updates))
          else walkChain D candidate n chainData.selectedParent anticone updates

/-- Applies the k-cluster rule to one merge-set candidate: its colour, its blue-anticone
size, and the new counters of the blues it is concurrent with. -/
def colourCandidate (D : DagStore) (candidate selectedParent : BlockHash)
    (mergesetBlues : List BlockHash) (sizes : Map BlockHash UInt16) :
    m (Colour × UInt16 × List (BlockHash × UInt16)) := do
  if D.k.toNat < mergesetBlues.length then pure (.red, 0, [])
  else
    -- blues introduced by this very block
    let scanned ← scanBlues reach D.k sizes candidate mergesetBlues 0 []
    match scanned with
    | none => pure (.red, 0, [])
    | some (anticone, updates) => do
      -- then the blues established along the selected parent chain
      let walked ← D.walkChain reach candidate (D.topologicalHeight selectedParent + 1)
        selectedParent anticone updates
      match walked with
      | none => pure (.red, 0, [])
      | some (anticone, updates) => pure (.blue, anticone, updates)

/-- The colours given out so far, and the counters of the blues. -/
structure Colouring where
  blues : List BlockHash
  reds : List BlockHash
  sizes : Map BlockHash UInt16

/-- Colours a candidate blue: its own counter and those of the blues it is concurrent
with are written. -/
def Colouring.addBlue (st : Colouring) (candidate : BlockHash) (anticone : UInt16)
    (updates : List (BlockHash × UInt16)) : Colouring where
  blues := st.blues ++ [candidate]
  reds := st.reds
  sizes := updates.foldl (fun sizes update => sizes.insert update.1 update.2)
    (st.sizes.insert candidate anticone)

/-- Colours a candidate red. -/
def Colouring.addRed (st : Colouring) (candidate : BlockHash) : Colouring :=
  { st with reds := st.reds ++ [candidate] }

/-- The colouring loop over the merge set. -/
def colourMergeset (D : DagStore) (selectedParent : BlockHash) :
    List BlockHash → Colouring → m Colouring
  | [], st => pure st
  | candidate :: mergeset, st => do
    let (colour, anticone, updates) ←
      D.colourCandidate reach candidate selectedParent st.blues st.sizes
    match colour with
    | .blue => colourMergeset D selectedParent mergeset (st.addBlue candidate anticone updates)
    | .red => colourMergeset D selectedParent mergeset (st.addRed candidate)

/-- The colouring before any candidate: the selected parent is always blue and first. -/
def Colouring.start (selectedParent : BlockHash) : Colouring where
  blues := [selectedParent]
  reds := []
  sizes := Finmap.insert selectedParent 0 ∅

/-- The data of a block from its selected parent's data, its merge set and its colouring. -/
def assemble (D : DagStore) (header : Header) (selectedParent : BlockHash)
    (selectedData : GhostdagData) (mergeset : List BlockHash) (st : Colouring) :
    GhostdagData where
  selectedParent := selectedParent
  blueScore := selectedData.blueScore + st.blues.length
  blueWork := U256.saturatingAdd
    (st.blues.tail.foldl (fun work blue => U256.saturatingAdd work (D.blockWork blue))
      selectedData.blueWork)
    (headerWork header)
  mergesetBlues := st.blues
  mergesetReds := st.reds
  mergesetOrdered := mergeset
  topologicalHeight := (header.parents.map D.topologicalHeight).foldr max 0 + 1
  bluesAnticoneSizes := st.sizes

/-- Computes GHOSTDAG data for a block that is not yet in the store. -/
def computeGhostdag [HeaderHash] (D : DagStore) (header : Header) :
    m (Except DagError GhostdagData) :=
  let selectedParent := D.selectParent header.parents
  match D.data.lookup selectedParent with
  | none => pure (.error (.missingParent header.hash selectedParent))
  | some selectedData => do
    let mergeset ← D.orderedMergeset reach header selectedParent
    match mergeset with
    | .error e => pure (.error e)
    | .ok mergeset => do
      let st ← D.colourMergeset reach selectedParent mergeset (Colouring.start selectedParent)
      pure (.ok (D.assemble header selectedParent selectedData mergeset st))

end Oracle

/-! ### Adding blocks -/

/-- The store after a block with its data has joined: a block with a child is no longer a
tip, and the new block is one. -/
def install (D : DagStore) (hash : BlockHash) (header : Header) (data : GhostdagData) :
    DagStore :=
  { D with
    children := header.parents.foldl
      (fun children parent =>
        children.insert parent ((children.lookup parent).getD [] ++ [hash])) D.children
    tips := insert hash (header.parents.foldl Finset.erase D.tips)
    headers := D.headers.insert hash header
    data := D.data.insert hash data }

/-- Adds a block, computing its GHOSTDAG data. The memo table survives a refusal. -/
def addBlock [HeaderHash] (D : DagStore) (header : Header) : DagStore × Except DagError BlockHash :=
  let hash := header.hash
  if hash ∈ D.headers then (D, .error (.alreadyPresent hash))
  else if header.parents = [] then (D, .error (.noParents hash))
  else
    match header.parents.find? fun p => p ∉ D.headers with
    | some parent => (D, .error (.missingParent hash parent))
    | none =>
      let run := (D.computeGhostdag D.isAncestorOf header).run D.reachability
      let D := { D with reachability := run.2 }
      match run.1 with
      | .error e => (D, .error e)
      | .ok data => (D.install hash header data, .ok hash)

/-- The store after a sequence of `add_block` calls, refused ones included. -/
def addBlocks [HeaderHash] (D : DagStore) (headers : List Header) : DagStore :=
  headers.foldl (fun D header => (D.addBlock header).1) D

end DagStore

/-! ### Blocks to evaluate on -/

namespace Sample

/-- A header hash that reads the nonce, under which small stores can be written down. -/
scoped instance nonceHash : HeaderHash := ⟨fun header => Fin.ofNat _ header.nonce.toNat⟩

/-- The hash of the block of nonce `n`. -/
def hashOf (n : ℕ) : BlockHash := Fin.ofNat _ n

/-- A block of nonce `n` over the blocks of nonces `parents`. -/
def block (n : ℕ) (parents : List ℕ) (bits : UInt32) : Header where
  version := 1
  parents := parents.map hashOf
  timestampMs := 0
  bits := bits
  nonce := UInt64.ofNat n
  miner := 0
  txsRoot := 0
  deferredHeight := 0
  deferredStateRoot := 0
  deferredReceiptsRoot := 0
  deferredGasUsed := 0

theorem block_hash {n : ℕ} (hn : n < 2 ^ 64) (parents : List ℕ) (bits : UInt32) :
    (block n parents bits).hash = hashOf n := by
  change Fin.ofNat _ (UInt64.ofNat n).toNat = Fin.ofNat _ n
  rw [UInt64.toNat_ofNat_of_lt' hn]

theorem hashOf_injOn {i j : ℕ} (hi : i < 2 ^ 64) (hj : j < 2 ^ 64) (h : hashOf i = hashOf j) :
    i = j := by
  have hval := congrArg Fin.val h
  simp only [hashOf, Fin.val_ofNat] at hval
  omega

/-- A genesis of low difficulty. -/
def root : Header := block 0 [] 0x2000ffff

/-- Two blocks on genesis and one that merges them. -/
def diamond : List Header :=
  [block 1 [0] 0x2000ffff, block 2 [0] 0x1f00ffff, block 3 [1, 2] 0x2000ffff]

end Sample

end Chainname
