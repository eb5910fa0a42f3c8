import Mathlib.Data.Prod.Lex
import Mathlib.Order.OrderDual
import Chainname.Library.GreedyMerge
import Chainname.Rpc.PoolIndex

/-!
# The choice of transactions for a miner

`bestTransactions` offers the most valuable transactions of the pool, each sender's in the order
of their nonces. It scans the heads of all senders for the best one, takes it, and moves the
cursor of its sender, until the limit is reached or nothing is left.

With the indexes of the pool in agreement this is the greedy merge of the senders' queues
(`takeBest_merge`), from which `bestTransactions_greedy` is read off.
-/

namespace Chainname

/-- The order of nonces. -/
instance linearOrderUInt64 : LinearOrder UInt64 where
  le_refl := UInt64.le_refl
  le_trans _ _ _ := UInt64.le_trans
  le_antisymm _ _ := UInt64.le_antisymm
  le_total := UInt64.le_total
  lt_iff_le_not_ge a b := by
    rw [UInt64.not_le]
    exact ⟨fun h => ⟨UInt64.le_of_lt h, h⟩, And.right⟩
  toDecidableLE := inferInstance
  toDecidableLT := inferInstance
  toDecidableEq := instDecidableEqUInt64

namespace TxPool

section Definitions

variable (pool : TxPool) (baseFee : ℕ)

/-- The transaction of a sender after those that have been taken, in the order of nonces. -/
def candidate (taken : Map Address ℕ) (sender : Address) (nonces : Map UInt64 B256) :
    Option PooledTx :=
  (Maps.toList nonces)[(taken.lookup sender).getD 0]?.bind fun entry =>
    pool.byHash.lookup entry.2

/-- Fee first, then arrival order. -/
def Better (candidate current : PooledTx) : Prop :=
  current.effectiveTip baseFee < candidate.effectiveTip baseFee ∨
    candidate.effectiveTip baseFee = current.effectiveTip baseFee ∧
      candidate.sequence < current.sequence

instance decidableBetter (candidate current : PooledTx) :
    Decidable (Better baseFee candidate current) := inferInstanceAs (Decidable (_ ∨ _ ∧ _))

/-- The best transaction so far, with its sender, after one more sender has been looked at. -/
def scan (taken : Map Address ℕ) (best : Option (PooledTx × Address))
    (head : Address × Map UInt64 B256) : Option (PooledTx × Address) :=
  match pool.candidate taken head.1 head.2 with
  | none => best
  | some candidate =>
    match best with
    | none => some (candidate, head.1)
    | some (current, sender) =>
      if Better baseFee candidate current then some (candidate, head.1) else some (current, sender)

/-- The best head among all senders. -/
def bestHead (taken : Map Address ℕ) : Option (PooledTx × Address) :=
  (Maps.toList pool.bySender).foldl (pool.scan baseFee taken) none

/-- Takes the best head, up to a number of times. -/
def takeBest : ℕ → Map Address ℕ → List PooledTx
  | 0, _ => []
  | limit + 1, taken =>
    match pool.bestHead baseFee taken with
    | none => []
    | some (chosen, sender) =>
      chosen :: takeBest limit (taken.insert sender ((taken.lookup sender).getD 0 + 1))

/-- The most valuable transactions a miner could include, best first. -/
def bestTransactions (limit : ℕ) : List PooledTx := pool.takeBest baseFee limit ∅

end Definitions

/-! ### The queues -/

section Queues

variable {pool : TxPool}

/-- The held transactions of a sender in the order of their nonces. -/
def queue (pool : TxPool) (sender : Address) : List PooledTx :=
  (Maps.toList (Index.slots pool.bySender sender)).filterMap fun entry =>
    pool.byHash.lookup entry.2

/-- Reading a list that a total test has gone over. -/
theorem getElem?_filterMap_of_isSome {α β : Type} {f : α → Option β} {l : List α}
    (h : ∀ a ∈ l, (f a).isSome) (i : ℕ) : (l.filterMap f)[i]? = l[i]?.bind f := by
  induction l generalizing i with
  | nil => rfl
  | cons a l ih =>
    obtain ⟨b, hb⟩ := Option.isSome_iff_exists.mp (h a List.mem_cons_self)
    rw [List.filterMap_cons_some hb]
    cases i with
    | zero =>
      rw [List.getElem?_cons_zero, List.getElem?_cons_zero, Option.bind_some, hb]
    | succ i =>
      rw [List.getElem?_cons_succ, List.getElem?_cons_succ]
      exact ih (fun c hc => h c (List.mem_cons_of_mem a hc)) i

/-- What is filed for a sender is held, under the nonce it is filed under. -/
theorem Sound.lookup_of_mem_slots (h : pool.Sound) {sender : Address} {entry : UInt64 × B256}
    (hmem : entry ∈ Maps.toList (Index.slots pool.bySender sender)) :
    ∃ p, pool.byHash.lookup entry.2 = some p ∧ p.sender = sender ∧ p.nonce = entry.1 := by
  obtain ⟨nonce, hash⟩ := entry
  exact (h.indexed.filed sender nonce hash).mp (Maps.mem_toList.mp hmem)

theorem Sound.mem_queue (h : pool.Sound) {sender : Address} {p : PooledTx} :
    p ∈ pool.queue sender ↔ pool.byHash.lookup p.hash = some p ∧ p.sender = sender := by
  unfold queue
  rw [List.mem_filterMap]
  refine ⟨?_, ?_⟩
  · rintro ⟨entry, hmem, hp⟩
    obtain ⟨q, hq, hsender, -⟩ := h.lookup_of_mem_slots hmem
    obtain rfl := Option.some.inj (hp.symm.trans hq)
    rw [h.keyed entry.2 p hp]
    exact ⟨hp, hsender⟩
  · rintro ⟨hp, hsender⟩
    refine ⟨(p.nonce, p.hash), Maps.mem_toList.mpr ?_, hp⟩
    exact (h.indexed.filed sender p.nonce p.hash).mpr ⟨p, hp, hsender, rfl⟩

/-- The nonces of a queue are those filed for the sender, in their order. -/
theorem Sound.map_nonce_queue (h : pool.Sound) (sender : Address) :
    (pool.queue sender).map PooledTx.nonce
      = Maps.sortedKeys (Index.slots pool.bySender sender).keys := by
  -- the hash at a nonce names a transaction of that nonce
  have hnonces : ∀ entry ∈ Maps.toList (Index.slots pool.bySender sender),
      (pool.byHash.lookup entry.2).map PooledTx.nonce = some entry.1 := by
    intro entry hmem
    obtain ⟨p, hp, -, hnonce⟩ := h.lookup_of_mem_slots hmem
    rw [hp, Option.map_some, hnonce]
  calc (pool.queue sender).map PooledTx.nonce
      = (Maps.toList (Index.slots pool.bySender sender)).filterMap fun entry =>
          (pool.byHash.lookup entry.2).map PooledTx.nonce := List.map_filterMap
    _ = (Maps.toList (Index.slots pool.bySender sender)).filterMap fun entry => some entry.1 :=
        List.filterMap_congr hnonces
    _ = (Maps.toList (Index.slots pool.bySender sender)).map Prod.fst :=
        congrFun (List.filterMap_eq_map (f := Prod.fst)) _
    _ = _ := Maps.map_fst_toList _

/-- A queue is in the order of nonces, each once. -/
theorem Sound.pairwise_queue (h : pool.Sound) (sender : Address) :
    (pool.queue sender).Pairwise fun p q => p.nonce < q.nonce := by
  -- the order is that of the keys under which the queue is filed
  have hsorted : ((pool.queue sender).map PooledTx.nonce).Pairwise (· < ·) := by
    rw [h.map_nonce_queue]
    refine ((Maps.pairwise_sortedKeys _).and (Maps.nodup_sortedKeys _)).imp fun hboth => ?_
    exact lt_of_le_of_ne hboth.1 hboth.2
  exact List.pairwise_map.mp hsorted

theorem Sound.nodup_queue (h : pool.Sound) (sender : Address) : (pool.queue sender).Nodup :=
  (h.pairwise_queue sender).imp fun hlt heq => absurd (congrArg PooledTx.nonce heq) hlt.ne

/-- The queues hold the whole pool. -/
theorem Sound.sum_length_queue (h : pool.Sound) :
    ∑ sender ∈ pool.bySender.keys, (pool.queue sender).length = pool.byHash.keys.card := by
  have hlength : ∀ sender, (pool.queue sender).length
      = (pool.byHash.keys.filter fun b =>
          (pool.byHash.lookup b).map PooledTx.sender = some sender).card := by
    intro sender
    rw [← h.indexed.card_slots, ← Maps.length_sortedKeys, ← h.map_nonce_queue, List.length_map]
  -- every held transaction is counted with its sender, who is in the index
  have hsenders : ∀ b ∈ pool.byHash.keys, (pool.byHash.lookup b).map PooledTx.sender
      ∈ pool.bySender.keys.map Function.Embedding.some := by
    intro b hb
    obtain ⟨p, hp⟩ := Maps.mem_iff_exists_lookup.mp (Finmap.mem_keys.mp hb)
    have hfiled := (h.indexed.filed p.sender p.nonce b).mpr ⟨p, hp, rfl, rfl⟩
    rw [Index.lookup_slots] at hfiled
    obtain ⟨nonces, hnonces, -⟩ := Option.bind_eq_some_iff.mp hfiled
    rw [hp, Option.map_some]
    exact Finset.mem_map.mpr ⟨p.sender, Finmap.mem_keys.mpr (Maps.mem_of_lookup hnonces), rfl⟩
  rw [Finset.card_eq_sum_card_fiberwise hsenders, Finset.sum_map]
  exact Finset.sum_congr rfl fun sender _ => hlength sender

end Queues

/-! ### The scan of the heads -/

section Scan

variable {pool : TxPool} {baseFee : ℕ}

/-- Selections go by tip, the highest first, and among equal tips by the earliest arrival. -/
def selectionKey (baseFee : ℕ) (pooled : PooledTx) : ℕᵒᵈ ×ₗ ℕ :=
  toLex (OrderDual.toDual (pooled.effectiveTip baseFee), pooled.sequence)

theorem selectionKey_le {a b : PooledTx} :
    selectionKey baseFee a ≤ selectionKey baseFee b ↔
      b.effectiveTip baseFee < a.effectiveTip baseFee ∨
        a.effectiveTip baseFee = b.effectiveTip baseFee ∧ a.sequence ≤ b.sequence :=
  Prod.Lex.toLex_le_toLex

theorem selectionKey_lt {a b : PooledTx} :
    selectionKey baseFee a < selectionKey baseFee b ↔
      b.effectiveTip baseFee < a.effectiveTip baseFee ∨
        a.effectiveTip baseFee = b.effectiveTip baseFee ∧ a.sequence < b.sequence :=
  Prod.Lex.toLex_lt_toLex

theorem better_iff {candidate current : PooledTx} : Better baseFee candidate current ↔
    selectionKey baseFee candidate < selectionKey baseFee current :=
  selectionKey_lt.symm

/-- The best of some candidates. -/
def IsBest (baseFee : ℕ) (candidates : List (PooledTx × Address))
    (best : Option (PooledTx × Address)) : Prop :=
  (best = none → candidates = []) ∧
    ∀ chosen, best = some chosen → chosen ∈ candidates ∧
      ∀ other ∈ candidates, selectionKey baseFee chosen.1 ≤ selectionKey baseFee other.1

/-- The candidates of some senders. -/
def candidates (pool : TxPool) (taken : Map Address ℕ)
    (heads : List (Address × Map UInt64 B256)) : List (PooledTx × Address) :=
  heads.filterMap fun head => (pool.candidate taken head.1 head.2).map (·, head.1)

theorem candidates_singleton (pool : TxPool) (taken : Map Address ℕ)
    (head : Address × Map UInt64 B256) : pool.candidates taken [head]
      = ((pool.candidate taken head.1 head.2).map (·, head.1)).toList := by
  unfold candidates
  rw [List.filterMap_cons]
  cases pool.candidate taken head.1 head.2 with
  | none => rfl
  | some candidate => rfl

/-- **One sender more.** -/
theorem IsBest.scan {seen : List (PooledTx × Address)} {best : Option (PooledTx × Address)}
    (h : IsBest baseFee seen best) (taken : Map Address ℕ) (head : Address × Map UInt64 B256) :
    IsBest baseFee (seen ++ pool.candidates taken [head]) (pool.scan baseFee taken best head) := by
  rw [candidates_singleton]
  unfold TxPool.scan
  cases pool.candidate taken head.1 head.2 with
  | none => exact (List.append_nil seen).symm ▸ h
  | some candidate =>
    rw [Option.map_some, Option.toList_some]
    cases best with
    | none =>
      rw [h.1 rfl, List.nil_append]
      refine ⟨nofun, ?_⟩
      rintro chosen ⟨rfl⟩
      refine ⟨List.mem_singleton.mpr rfl, fun other hother => ?_⟩
      rw [List.mem_singleton.mp hother]
    -- the candidate of this sender against the best so far
    | some current =>
      obtain ⟨hmem, hleast⟩ := h.2 current rfl
      dsimp only
      split
      · next hbetter =>
        have hlt := better_iff.mp hbetter
        refine ⟨nofun, ?_⟩
        rintro chosen ⟨rfl⟩
        refine ⟨List.mem_append_right _ (List.mem_singleton.mpr rfl), fun other hother => ?_⟩
        obtain hother | hother := List.mem_append.mp hother
        · exact hlt.le.trans (hleast other hother)
        · rw [List.mem_singleton.mp hother]
      · next hnot =>
        have hle := not_lt.mp (mt better_iff.mpr hnot)
        refine ⟨nofun, ?_⟩
        rintro chosen ⟨rfl⟩
        refine ⟨List.mem_append_left _ hmem, fun other hother => ?_⟩
        obtain hother | hother := List.mem_append.mp hother
        · exact hleast other hother
        · rw [List.mem_singleton.mp hother]
          exact hle

/-- The scan finds the best of all heads. -/
theorem isBest_foldl (taken : Map Address ℕ) (heads : List (Address × Map UInt64 B256))
    {seen : List (PooledTx × Address)} {best : Option (PooledTx × Address)}
    (h : IsBest baseFee seen best) :
    IsBest baseFee (seen ++ pool.candidates taken heads)
      (heads.foldl (pool.scan baseFee taken) best) := by
  induction heads generalizing seen best with
  | nil => exact (List.append_nil seen).symm ▸ h
  | cons head heads ih =>
    have hsplit : pool.candidates taken (head :: heads)
        = pool.candidates taken [head] ++ pool.candidates taken heads :=
      List.filterMap_append (l := [head])
    rw [hsplit, ← List.append_assoc]
    exact ih (h.scan taken head)

theorem isBest_bestHead (pool : TxPool) (baseFee : ℕ) (taken : Map Address ℕ) :
    IsBest baseFee (pool.candidates taken (Maps.toList pool.bySender))
      (pool.bestHead baseFee taken) := by
  have hnone : IsBest baseFee [] none := ⟨fun _ => rfl, fun _ h => (nomatch h)⟩
  exact isBest_foldl taken _ hnone

end Scan

/-! ### The merge -/

section Merge

variable {pool : TxPool}

/-- What is left of a sender's queue. -/
def remaining (pool : TxPool) (taken : Map Address ℕ) (sender : Address) : List PooledTx :=
  (pool.queue sender).drop ((taken.lookup sender).getD 0)

/-- The candidate of a sender is the head of what is left of its queue. -/
theorem Sound.candidate_eq (h : pool.Sound) {sender : Address} {nonces : Map UInt64 B256}
    (hnonces : pool.bySender.lookup sender = some nonces) (taken : Map Address ℕ) :
    pool.candidate taken sender nonces = (pool.remaining taken sender).head? := by
  have hslots := Index.slots_of_lookup hnonces
  have htotal : ∀ entry ∈ Maps.toList (Index.slots pool.bySender sender),
      (pool.byHash.lookup entry.2).isSome := by
    intro entry hmem
    obtain ⟨p, hp, -⟩ := h.lookup_of_mem_slots hmem
    rw [hp]
    rfl
  unfold candidate remaining
  rw [List.head?_drop, queue, getElem?_filterMap_of_isSome htotal, hslots]

/-- A sender that is not in the index has no queue. -/
theorem remaining_of_lookup_eq_none {sender : Address} (h : pool.bySender.lookup sender = none)
    (taken : Map Address ℕ) : pool.remaining taken sender = [] := by
  have hslots : Index.slots pool.bySender sender = ∅ := by
    unfold Index.slots
    rw [h]
    rfl
  unfold remaining queue
  rw [hslots]
  exact List.drop_nil

/-- The candidates are the heads of what is left. -/
theorem Sound.mem_candidates (h : pool.Sound) {taken : Map Address ℕ} {p : PooledTx}
    {sender : Address} : (p, sender) ∈ pool.candidates taken (Maps.toList pool.bySender) ↔
      ∃ rest, pool.remaining taken sender = p :: rest := by
  unfold candidates
  rw [List.mem_filterMap]
  refine ⟨?_, ?_⟩
  · rintro ⟨⟨s, nonces⟩, hmem, hcandidate⟩
    obtain ⟨q, hq, heq⟩ := Option.map_eq_some_iff.mp hcandidate
    obtain ⟨rfl, rfl⟩ := Prod.mk.inj heq
    rw [h.candidate_eq (Maps.mem_toList.mp hmem)] at hq
    exact List.head?_eq_some_iff.mp hq
  · -- what is left of the sender starts at its next nonce
    rintro ⟨rest, hrest⟩
    cases hnonces : pool.bySender.lookup sender with
    | none =>
      rw [remaining_of_lookup_eq_none hnonces] at hrest
      cases hrest
    | some nonces =>
      refine ⟨(sender, nonces), Maps.mem_toList.mpr hnonces, ?_⟩
      rw [h.candidate_eq hnonces, hrest]
      rfl

/-- Moving a cursor takes the head. -/
theorem remaining_insert {taken : Map Address ℕ} {sender : Address} {p : PooledTx}
    {rest : List PooledTx} (hrest : pool.remaining taken sender = p :: rest) :
    pool.remaining (taken.insert sender ((taken.lookup sender).getD 0 + 1))
      = Function.update (pool.remaining taken) sender rest := by
  funext s
  -- one more is taken from this sender, none from the others
  by_cases hs : s = sender
  · subst hs
    rw [Function.update_self]
    unfold remaining at hrest ⊢
    rw [Finmap.lookup_insert, Option.getD_some, ← List.tail_drop, hrest]
    rfl
  · rw [Function.update_of_ne hs]
    unfold remaining
    rw [Finmap.lookup_insert_of_ne _ hs]

/-- **The choice of transactions is a greedy merge** of the queues of the senders. -/
theorem Sound.takeBest_merge (h : pool.Sound) (baseFee limit : ℕ) (taken : Map Address ℕ) :
    Greedy.Merge (selectionKey baseFee) limit (pool.remaining taken)
      (pool.takeBest baseFee limit taken) := by
  induction limit generalizing taken with
  | zero => exact .full _
  | succ limit ih =>
    have hbest := isBest_bestHead pool baseFee taken
    unfold takeBest
    -- no candidate, so every sender is used up
    cases hhead : pool.bestHead baseFee taken with
    | none =>
      refine .dry _ fun sender => ?_
      cases hrest : pool.remaining taken sender with
      | nil => rfl
      | cons p rest =>
        have hmem := h.mem_candidates.mpr ⟨rest, hrest⟩
        rw [hbest.1 hhead] at hmem
        exact absurd hmem List.not_mem_nil
    | some best =>
      obtain ⟨chosen, sender⟩ := best
      obtain ⟨hmem, hleast⟩ := hbest.2 _ hhead
      obtain ⟨rest, hrest⟩ := h.mem_candidates.mp hmem
      refine .take hrest (fun s q rest' hq => ?_) ?_
      · exact hleast (q, s) (h.mem_candidates.mpr ⟨rest', hq⟩)
      · rw [← remaining_insert hrest]
        exact ih _

end Merge

/-! ### What is offered -/

section Offered

variable {pool : TxPool}

/-- The transaction has the lowest nonce of those of its sender that have not been offered. -/
def IsHead (pool : TxPool) (offered : List PooledTx) (p : PooledTx) : Prop :=
  pool.byHash.lookup p.hash = some p ∧ p ∉ offered ∧
    ∀ q, pool.byHash.lookup q.hash = some q → q.sender = p.sender → q ∉ offered → p.nonce ≤ q.nonce

theorem remaining_empty : pool.remaining ∅ = pool.queue := by
  funext sender
  unfold remaining
  rw [Finmap.lookup_empty]
  exact List.drop_zero

theorem Sound.bestTransactions_merge (h : pool.Sound) (baseFee limit : ℕ) :
    Greedy.Merge (selectionKey baseFee) limit pool.queue
      (pool.bestTransactions baseFee limit) := by
  have hmerge := h.takeBest_merge baseFee limit ∅
  rw [remaining_empty] at hmerge
  exact hmerge

theorem Sound.sender_of_mem_queue (h : pool.Sound) :
    ∀ sender, ∀ p ∈ pool.queue sender, p.sender = sender :=
  fun _ _ hmem => (h.mem_queue.mp hmem).2

/-- Of a sender's queue, the transactions that have been offered are the first ones. -/
theorem Sound.queue_eq_append (h : pool.Sound) {baseFee limit : ℕ} {offered rest : List PooledTx}
    (hout : pool.bestTransactions baseFee limit = offered ++ rest) (sender : Address) :
    pool.queue sender = offered.filter (·.sender = sender)
      ++ Greedy.left PooledTx.sender pool.queue offered sender := by
  have hprefix := (h.bestTransactions_merge baseFee limit).prefix_filter
    h.sender_of_mem_queue sender
  rw [hout, List.filter_append] at hprefix
  obtain ⟨tail, htail⟩ := (List.prefix_append _ _).trans hprefix
  unfold Greedy.left
  rw [← htail, List.countP_eq_length_filter, List.drop_left]

/-- **The heads** of what is left are the transactions of lowest nonce not offered yet. -/
theorem Sound.isHead_iff (h : pool.Sound) {baseFee limit : ℕ} {offered rest : List PooledTx}
    (hout : pool.bestTransactions baseFee limit = offered ++ rest) {p : PooledTx} :
    pool.IsHead offered p ↔
      ∃ tail, Greedy.left PooledTx.sender pool.queue offered p.sender = p :: tail := by
  have hqueue := h.queue_eq_append hout p.sender
  have hsorted := h.pairwise_queue p.sender
  have hnodup := h.nodup_queue p.sender
  rw [hqueue] at hsorted hnodup
  -- what is left of the queue is what has not been offered
  have hleft : ∀ q, q ∈ Greedy.left PooledTx.sender pool.queue offered p.sender ↔
      pool.byHash.lookup q.hash = some q ∧ q.sender = p.sender ∧ q ∉ offered := by
    intro q
    have hmem : q ∈ pool.queue p.sender ↔ _ := h.mem_queue
    rw [hqueue, List.mem_append, List.mem_filter] at hmem
    refine ⟨?_, ?_⟩
    · intro hq
      obtain ⟨hheld, hsender⟩ := hmem.mp (Or.inr hq)
      refine ⟨hheld, hsender, fun hoffered => ?_⟩
      exact (List.nodup_append.mp hnodup).2.2 q
        (List.mem_filter.mpr ⟨hoffered, decide_eq_true hsender⟩) q hq rfl
    · rintro ⟨hheld, hsender, hnot⟩
      exact (hmem.mpr ⟨hheld, hsender⟩).resolve_left fun hoffered => hnot hoffered.1
  generalize Greedy.left PooledTx.sender pool.queue offered p.sender = left at hleft hsorted
  have hleftSorted := (List.pairwise_append.mp hsorted).2.1
  refine ⟨?_, ?_⟩
  · rintro ⟨hheld, hnot, hlowest⟩
    have hp := (hleft p).mpr ⟨hheld, rfl, hnot⟩
    cases left with
    | nil => exact absurd hp List.not_mem_nil
    | cons first tail =>
      obtain ⟨hheld', hsender', hnot'⟩ := (hleft first).mp List.mem_cons_self
      obtain rfl | hmem := List.mem_cons.mp hp
      · exact ⟨tail, rfl⟩
      · have hlt := (List.pairwise_cons.mp hleftSorted).1 p hmem
        exact absurd (hlowest first hheld' hsender' hnot') (not_le.mpr hlt)
  · rintro ⟨tail, rfl⟩
    obtain ⟨hheld, -, hnot⟩ := (hleft p).mp List.mem_cons_self
    refine ⟨hheld, hnot, fun q hq hsender hnotq => ?_⟩
    obtain rfl | hmem := List.mem_cons.mp ((hleft q).mpr ⟨hq, hsender, hnotq⟩)
    · exact le_rfl
    · exact ((List.pairwise_cons.mp hleftSorted).1 q hmem).le

/-- **`bestTransactions` is the greedy merge that respects nonces.** It offers distinct held
transactions, as many as were asked for or as there are. What it offers of a sender is the start
of the sender's transactions in the order of nonces. At every place stands, among the
transactions of lowest nonce of each sender that have not been offered, the one of the largest
effective tip, the earliest of them if there are several. -/
theorem bestTransactions_greedy (config : PoolConfig) (calls : List PoolCall)
    (baseFee limit : ℕ) :
    (((reached config calls).bestTransactions baseFee limit).length
        = min limit (reached config calls).byHash.keys.card ∧
      ((reached config calls).bestTransactions baseFee limit).Nodup ∧
      ∀ p ∈ (reached config calls).bestTransactions baseFee limit,
        (reached config calls).byHash.lookup p.hash = some p) ∧
    (∀ sender, ∃ queue : List PooledTx,
      (∀ p, p ∈ queue ↔
        (reached config calls).byHash.lookup p.hash = some p ∧ p.sender = sender) ∧
      (queue.Pairwise fun p q => p.nonce < q.nonce) ∧
      ((reached config calls).bestTransactions baseFee limit).filter (·.sender = sender)
        <+: queue) ∧
    ∀ offered chosen rest,
      (reached config calls).bestTransactions baseFee limit = offered ++ chosen :: rest →
      (reached config calls).IsHead offered chosen ∧
        ∀ p, (reached config calls).IsHead offered p →
          p.effectiveTip baseFee < chosen.effectiveTip baseFee ∨
            p.effectiveTip baseFee = chosen.effectiveTip baseFee ∧
              chosen.sequence ≤ p.sequence := by
  have hsound := sound_reached config calls
  generalize reached config calls = pool at hsound
  have hmerge := hsound.bestTransactions_merge baseFee limit
  have howner := hsound.sender_of_mem_queue
  refine ⟨⟨?_, hmerge.nodup howner hsound.nodup_queue, ?_⟩, ?_, ?_⟩
  · -- senders without an entry have nothing queued
    rw [hmerge.length_eq pool.bySender.keys, hsound.sum_length_queue]
    intro sender hnot
    have hnone := Finmap.lookup_eq_none.mpr fun hmem => hnot (Finmap.mem_keys.mpr hmem)
    rw [← remaining_empty]
    exact remaining_of_lookup_eq_none hnone ∅
  · exact fun p hp => (hsound.mem_queue.mp (hmerge.mem_queue howner hp)).1
  · exact fun sender => ⟨pool.queue sender, fun p => hsound.mem_queue,
      hsound.pairwise_queue sender, hmerge.prefix_filter howner sender⟩
  · -- each choice is the least of the heads, by tip and then by arrival
    intro offered chosen rest hout
    obtain ⟨hhead, hleast⟩ := hmerge.choice howner hout
    refine ⟨(hsound.isHead_iff hout).mpr hhead, fun p hp => ?_⟩
    obtain ⟨tail, htail⟩ := (hsound.isHead_iff hout).mp hp
    have hkey := selectionKey_le.mp (hleast p.sender p tail htail)
    exact hkey.imp_right fun heq => ⟨heq.1.symm, heq.2⟩

end Offered

end TxPool

end Chainname
