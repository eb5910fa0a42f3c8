import Chainname.Chain.NodeRun
import Chainname.Chain.Refusal
import Chainname.Chain.Rewind

/-!
# Bringing execution up to the DAG

A node that follows the selected chain of its tip can always go on: the reorganisation to the
virtual selected parent is refused only if it removes more blocks than the journal has records of
(`NodeInv.reorg_isOk_iff`), which no reorganisation does as long as nothing has been pruned
(`NodeInv.advance`).

What a node records for a height depends on the chain block there and on nothing else, whatever
else its DAG holds and whichever way it came (`NodeInv.outcome_eq`).
-/

namespace Chainname

open ChainExecutor DagStore

namespace DagStore

variable [HeaderHash] {D : DagStore}

/-- The chain of a block on a chain is the rest of it. -/
theorem Valid.chain_split (hD : D.Valid) {tip b : BlockHash} (htip : tip ∈ D.headers)
    (hb : b ∈ D.selectedParentChain tip) :
    ∃ newer, D.selectedParentChain tip = newer ++ D.selectedParentChain b := by
  obtain ⟨newer, older, hsplit⟩ := List.append_of_mem hb
  refine ⟨newer, ?_⟩
  rw [(hD.chain_of_split htip hsplit).2]
  exact hsplit

/-- A chain has no more blocks than are stored. -/
theorem Valid.length_chain_le (hD : D.Valid) {b : BlockHash} (hb : b ∈ D.headers) :
    (D.selectedParentChain b).length ≤ D.len := by
  have hsubset : (D.selectedParentChain b).toFinset ⊆ D.headers.keys := fun x hx =>
    Finmap.mem_keys.mpr ((hD.anc_of_mem_chain hb (List.mem_toFinset.mp hx)).mem
      hD.layered.toRooted hb)
  rw [← List.toFinset_card_of_nodup (hD.nodup_chain hb)]
  exact Finset.card_le_card hsubset

end DagStore

namespace ChainExecutor

section Undo

variable [Evm] [Trie] [FeeRule] {codeOf : B256 → Bytecode} {start X : ChainExecutor}
  {D : DagStore} {bodies : BodyStore}

/-- Of the newest blocks of the chain, as many can be undone as there are records. -/
theorem Follows.undoAll_isOk_iff (hcode : CodeByHash codeOf) (hstart : Start codeOf start)
    {removed : List BlockHash} : ∀ {X : ChainExecutor} {older : List BlockHash},
    (∀ b ∈ removed ++ older, b ∈ D.headers) →
    Follows codeOf start D bodies X (removed ++ older) →
      ((X.undoAll removed).2.isOk = true ↔ removed.length ≤ X.newestFirst.length) := by
  induction removed with
  | nil => exact fun _ _ => iff_of_true rfl (Nat.zero_le _)
  | cons hash removed ih =>
    intro X older hknown h
    have hjournal := h.journal
    obtain ⟨hrefused, e, he⟩ | ⟨height, record, records, hnew, hrun⟩ := X.undoOne_cases hash
    · -- the newest record is that of the newest block, so there is none
      have hnil : X.newestFirst = [] := by
        cases hnew : X.newestFirst with
        | nil => rfl
        | cons entry records =>
          rw [hnew] at hjournal hrefused
          refine absurd ?_ hrefused
          rw [List.head?_cons, Option.map_some, hjournal.2.1]
      unfold ChainExecutor.undoAll
      rw [he, hnil]
      exact iff_of_false Bool.false_ne_true (Nat.not_succ_le_zero _)
    · -- the record is popped, and both counts lose one
      obtain ⟨older', heq, h'⟩ := h.undoOne hcode hstart hknown hrun
      obtain rfl : older' = removed ++ older := (List.cons.inj heq).2.symm
      unfold ChainExecutor.undoAll
      rw [hrun]
      dsimp only
      rw [ih (fun b hb => hknown b (List.mem_cons_of_mem hash hb)) h', hnew]
      unfold newestFirst
      rw [List.reverse_reverse, List.length_cons, List.length_cons, Nat.add_le_add_iff_right]

omit [Evm] [Trie] [FeeRule] in
/-- Undoing takes one record off for each block. -/
theorem length_undoAll {removed : List BlockHash} : ∀ {X X' : ChainExecutor},
    X.undoAll removed = (X', .ok ()) →
      X.newestFirst.length = removed.length + X'.newestFirst.length := by
  -- every undo takes exactly one record
  induction removed with
  | nil =>
    intro X X' hok
    obtain ⟨rfl, -⟩ := Prod.mk.inj hok
    exact (Nat.zero_add _).symm
  | cons hash removed ih =>
    intro X X' hok
    obtain ⟨X₁, hone, hrest⟩ := undoAll_cons hok
    obtain ⟨-, e, he⟩ | ⟨height, record, records, hnew, hrun⟩ := X.undoOne_cases hash
    · rw [he] at hone
      exact absurd (Prod.mk.inj hone).2 (by simp)
    · rw [hrun] at hone
      obtain ⟨rfl, -⟩ := Prod.mk.inj hone
      have hlen := ih hrest
      unfold newestFirst at hlen
      rw [List.reverse_reverse] at hlen
      rw [hnew, List.length_cons, List.length_cons, hlen, newestFirst]
      omega

/-- The last block executed is the tip. -/
theorem tip_executeAll {known : BodyStore} {added : List BlockHash} :
    ∀ {X : ChainExecutor} {outcomes : List ChainBlockOutcome},
    (X.executeAll D known added outcomes).2.isOk = true →
      (X.executeAll D known added outcomes).1.tip = added.getLast?.getD X.tip := by
  -- the tip is the last block executed
  induction added with
  | nil => exact fun _ => rfl
  | cons hash added ih =>
    intro X outcomes hok
    unfold ChainExecutor.executeAll at hok ⊢
    obtain ⟨-, heq⟩ | ⟨outcome, -, -, X', -, heq, -, -, -, htip, -⟩ :=
      executeChainBlock_cases X D known hash
    · rw [heq] at hok
      exact absurd hok Bool.false_ne_true
    · rw [heq] at hok ⊢
      dsimp only at hok ⊢
      rw [ih hok, List.getLast?_cons, Option.getD_some, htip]

/-- The height of an executor is the length of the chain it follows. -/
theorem Follows.height_eq (hcode : CodeByHash codeOf) (hstart : Start codeOf start)
    {chain : List BlockHash} (hknown : ∀ b ∈ chain, b ∈ D.headers)
    (h : Follows codeOf start D bodies X chain) : X.height = chain.length := by
  rw [← h.like.height, (onChain_facts hcode hstart bodies hknown).1]

theorem params_onChain (hcode : CodeByHash codeOf) (hstart : Start codeOf start)
    {chain : List BlockHash} (hknown : ∀ b ∈ chain, b ∈ D.headers) :
    (onChain start D bodies chain).params = start.params := by
  induction chain with
  | nil => rfl
  | cons hash older ih =>
    obtain ⟨outcome, record, hexec⟩ := onChain_executed hcode hstart bodies hknown
    rw [hexec.params, ih fun b hb => hknown b (List.mem_cons_of_mem hash hb)]

/-- What the reference has recorded for a height stays when the chain grows. -/
theorem lookup_onChain_append (hcode : CodeByHash codeOf) (hstart : Start codeOf start)
    {newer older : List BlockHash} (hknown : ∀ b ∈ newer ++ older, b ∈ D.headers) {height : ℕ}
    (hheight : height ≤ older.length) :
    (onChain start D bodies (newer ++ older)).results.lookup height
      = (onChain start D bodies older).results.lookup height := by
  induction newer with
  | nil => rfl
  | cons hash newer ih =>
    have hrest : ∀ b ∈ newer ++ older, b ∈ D.headers := fun b hb =>
      hknown b (List.mem_cons_of_mem hash hb)
    -- blocks above do not touch the results below
    obtain ⟨outcome, record, hexec⟩ : ∃ outcome record,
        Executed (onChain start D bodies (newer ++ older)) hash outcome record
          (onChain start D bodies (hash :: (newer ++ older))) :=
      onChain_executed hcode hstart bodies hknown
    have hlen := (onChain_facts hcode hstart bodies hrest).1
    rw [List.length_append] at hlen
    show (onChain start D bodies (hash :: (newer ++ older))).results.lookup height = _
    rw [hexec.results, Maps.lookup_insert, if_neg (by omega), ih hrest]

end Undo

end ChainExecutor

namespace Node

section Advance

variable [HeaderHash] [Evm] [Trie] [FeeRule] {codeOf : B256 → Bytecode} {start : ChainExecutor}
  {bodies : BodyStore} {n : Node}

/-- The DAG may grow. -/
theorem NodeInv.grow (hcode : CodeByHash codeOf) (hstart : Start codeOf start)
    (h : NodeInv codeOf start bodies n) (headers : List Header) :
    NodeInv codeOf start bodies { n with dag := n.dag.addBlocks headers } := by
  induction headers generalizing n with
  | nil => exact h
  | cons header headers ih =>
    have hlegal : Legal bodies n (.addBlock header) := ⟨trivial, trivial⟩
    exact ih (h.step hcode hstart hlegal)

/-- The blocks above genesis on the chain of the tip are stored. -/
theorem NodeInv.chain_known (h : NodeInv codeOf start bodies n) :
    ∀ b ∈ (n.dag.selectedParentChain n.executor.tip).dropLast, b ∈ n.dag.headers :=
  fun _ hb => mem_of_mem_dropLast h.valid h.tip_mem hb

/-- The pending reorganisation goes from the chain of the tip to that of the virtual selected
parent, both without genesis, over a common one. -/
theorem NodeInv.pending_spec (h : NodeInv codeOf start bodies n)
    (hreach : n.dag.divergence n.executor.tip n.dag.virtualSelectedParent ≤ maxReorgWalk) :
    ∃ older, (n.dag.selectedParentChain n.executor.tip).dropLast = n.pending.removed ++ older ∧
      (n.dag.selectedParentChain n.dag.virtualSelectedParent).dropLast
        = n.pending.added.reverse ++ older := by
  -- up to the fork the two chains share everything
  obtain ⟨fork, hfork, hold, hnew, -⟩ := h.valid.reorgToSelected h.tip_mem hreach
  have hne : n.dag.selectedParentChain fork ≠ [] := by
    rw [h.valid.chain_eq_dropLast hfork]
    exact List.append_ne_nil_of_right_ne_nil _ (List.cons_ne_nil _ _)
  refine ⟨(n.dag.selectedParentChain fork).dropLast, ?_, ?_⟩
  · rw [hold, List.dropLast_append_of_ne_nil hne]
    rfl
  · rw [hnew, List.dropLast_append_of_ne_nil hne]
    rfl

/-- The blocks of the chain of the virtual selected parent are stored. -/
theorem NodeInv.selected_known (h : NodeInv codeOf start bodies n) :
    ∀ b ∈ (n.dag.selectedParentChain n.dag.virtualSelectedParent).dropLast, b ∈ n.dag.headers :=
  fun _ hb => mem_of_mem_dropLast h.valid
    (h.valid.mem_tips.mp h.valid.virtualSelectedParent_mem).1 hb

/-- The blocks to be executed are stored. -/
theorem NodeInv.pending_known (h : NodeInv codeOf start bodies n)
    (hreach : n.dag.divergence n.executor.tip n.dag.virtualSelectedParent ≤ maxReorgWalk) :
    ∀ b ∈ n.pending.added, b ∈ n.dag.headers := by
  obtain ⟨older, -, hnew⟩ := h.pending_spec hreach
  intro b hb
  refine h.selected_known b ?_
  rw [hnew]
  exact List.mem_append_left _ (List.mem_reverse.mpr hb)

omit [Evm] [Trie] [FeeRule] in
/-- The last block to be executed is the virtual selected parent. -/
theorem getLast_pending (hvalid : n.dag.Valid) (htip : n.executor.tip ∈ n.dag.headers)
    (hreach : n.dag.divergence n.executor.tip n.dag.virtualSelectedParent ≤ maxReorgWalk)
    (hne : n.executor.tip ≠ n.dag.virtualSelectedParent) :
    n.pending.added.getLast? = some n.dag.virtualSelectedParent := by
  obtain ⟨-, -, -, -, hlast⟩ := hvalid.reorgToSelected htip hreach
  exact hlast hne

/-- A reorganisation that succeeds arrives at the virtual selected parent. -/
theorem NodeInv.tip_reorg (h : NodeInv codeOf start bodies n)
    (hreach : n.dag.divergence n.executor.tip n.dag.virtualSelectedParent ≤ maxReorgWalk)
    (hne : n.executor.tip ≠ n.dag.virtualSelectedParent) {known : BodyStore}
    (hok : (n.executor.applyReorg n.dag known n.pending.removed n.pending.added).2.isOk = true) :
    (n.executor.applyReorg n.dag known n.pending.removed n.pending.added).1.tip
      = n.dag.virtualSelectedParent := by
  have hlast := getLast_pending h.valid h.tip_mem hreach hne
  unfold applyReorg at hok ⊢
  -- past an undo that failed there is nothing to show
  cases hrun : n.executor.undoAll n.pending.removed with
  | mk X result =>
    rw [hrun] at hok
    cases result with
    | error e => exact absurd hok Bool.false_ne_true
    | ok _ =>
      dsimp only at hok ⊢
      rw [tip_executeAll hok, hlast, Option.getD_some]

/-- **When a reorganisation is refused**: exactly if it removes more blocks than the journal has
records of. -/
theorem NodeInv.reorg_isOk_iff (hcode : CodeByHash codeOf) (hstart : Start codeOf start)
    (h : NodeInv codeOf start bodies n)
    (hreach : n.dag.divergence n.executor.tip n.dag.virtualSelectedParent ≤ maxReorgWalk)
    (known : BodyStore) :
    (n.executor.applyReorg n.dag known n.pending.removed n.pending.added).2.isOk = true ↔
      n.pending.removed.length ≤ n.executor.newestFirst.length := by
  obtain ⟨older, hold, hnew⟩ := h.pending_spec hreach
  have hfollows := h.follows
  have hchain := h.chain_known
  have hselected := h.selected_known
  rw [hold] at hfollows hchain
  rw [hnew] at hselected
  have hundo := hfollows.undoAll_isOk_iff hcode hstart hchain
  rw [← hundo]
  unfold applyReorg
  cases hrun : n.executor.undoAll n.pending.removed with
  | mk X result =>
    cases result with
    | error e => rfl
    | ok _ =>
      -- what is left is to execute stored blocks, whatever their bodies
      refine iff_of_true ((executeAll_known X n.dag known n.pending.added [] []).2.mpr ?_) rfl
      exact fun hash hmem => hselected hash (List.mem_append_left _ (List.mem_reverse.mpr hmem))

/-- The heights of the chain of the virtual selected parent. -/
def selectedHeight (n : Node) : ℕ :=
  (n.dag.selectedParentChain n.dag.virtualSelectedParent).length - 1

/-- **Execution can always be brought up to the DAG while nothing has been pruned**, and nothing is
pruned as long as the chain is no longer than the pruning window. -/
theorem NodeInv.advance (hcode : CodeByHash codeOf) (hstart : Start codeOf start)
    (h : NodeInv codeOf start bodies n) (hunpruned : n.executor.Unpruned)
    (hreach : n.dag.divergence n.executor.tip n.dag.virtualSelectedParent ≤ maxReorgWalk)
    (hwindow : n.selectedHeight ≤ start.params.pruningWindowBlocks) (known : BodyStore) :
    (n.executor.applyReorg n.dag known n.pending.removed n.pending.added).2.isOk = true ∧
      (n.step (.reorg known)).executor.Unpruned := by
  obtain ⟨older, hold, hnew⟩ := h.pending_spec hreach
  have hfollows := h.follows
  have hchain := h.chain_known
  have hselected := h.selected_known
  -- an unpruned journal holds a record for every block to be undone
  have hok : (n.executor.applyReorg n.dag known n.pending.removed n.pending.added).2.isOk = true := by
    rw [h.reorg_isOk_iff hcode hstart hreach known]
    have hheight := hfollows.height_eq hcode hstart hchain
    rw [hold, List.length_append] at hheight
    have hcount : n.executor.newestFirst.length = n.executor.height := hunpruned
    omega
  refine ⟨hok, ?_⟩
  rw [hold] at hfollows hchain
  rw [hnew] at hselected
  show (n.executor.applyReorg n.dag known n.pending.removed n.pending.added).1.Unpruned
  unfold applyReorg at hok ⊢
  cases hrun : n.executor.undoAll n.pending.removed with
  | mk X result =>
    rw [hrun] at hok
    cases result with
    | error e => exact absurd hok Bool.false_ne_true
    | ok _ =>
      obtain ⟨older', hsplit, hX⟩ := hfollows.undoAll hcode hstart hchain hrun
      obtain rfl := List.append_cancel_left hsplit
      have hbelow : ∀ b ∈ older, b ∈ n.dag.headers := fun b hb =>
        hchain b (List.mem_append_right _ hb)
      have hheight := hX.height_eq hcode hstart hbelow
      have hheightOld := hfollows.height_eq hcode hstart hchain
      have hlen := length_undoAll hrun
      have hparams : X.params = start.params :=
        hX.like.params.symm.trans (params_onChain hcode hstart hbelow)
      -- undoing takes as many records as heights
      have hfull : X.Unpruned := by
        have hcount : n.executor.newestFirst.length = n.executor.height := hunpruned
        rw [List.length_append] at hheightOld
        show X.newestFirst.length = X.height
        omega
      refine hfull.executeAll (fun hash hmem => ?_) [] ?_
      · exact hselected hash (List.mem_append_left _ (List.mem_reverse.mpr hmem))
      · rw [hparams, hheight]
        -- the height reached is that of the selected chain, within the window
        refine le_trans ?_ hwindow
        unfold selectedHeight
        rw [← List.length_dropLast, hnew, List.length_append, List.length_reverse]
        omega

omit [Evm] [Trie] [FeeRule] in
/-- Stores without collisions agree on the past of a block that both hold. -/
theorem agreeOn_past {D₁ D₂ : DagStore} (hD₁ : D₁.Valid) (hD₂ : D₂.Valid)
    (hgenesis : D₁.genesis = D₂.genesis) (hk : D₁.k = D₂.k)
    (hlimit : D₁.mergesetSizeLimit = D₂.mergesetSizeLimit) (hno : NoCollision D₁ D₂)
    {b : BlockHash} (h₁ : b ∈ D₁.headers) (h₂ : b ∈ D₂.headers) :
    AgreeOn (fun x => D₁.Anc x b) D₁ D₂ := by
  have hpast : PastAgrees D₁ D₂ b := fun a ha =>
    (lookup_eq_of_anc hD₁ hD₂ hgenesis hno h₁ h₂ ha).2.2
  -- the past of a shared block is stored alike in both
  refine ⟨hk, hgenesis, hlimit, fun ha => hpast _ ha, fun ha => ?_, fun ha => ?_, ?_, ?_⟩
  · exact hD₁.data_eq_of_past hD₂ hk hgenesis hlimit hpast _ ha
  · exact ha.mem hD₁.layered.toRooted h₁
  · exact fun hc hedge => hedge.anc.trans hc
  · intro x data hx hdata
    by_cases hne : x = D₁.genesis
    · rw [hne] at hdata
      rw [hD₁.selected_genesis hdata, ← hne]
      exact hx
    · exact (hD₁.selected_edge hdata hne).anc.trans hx

/-- The chain up to a height is that of the block recorded there. -/
theorem NodeInv.chain_at (hcode : CodeByHash codeOf) (hstart : Start codeOf start)
    (h : NodeInv codeOf start bodies n) {height : ℕ} {b : BlockHash}
    (hb : n.executor.hashAt height = some b) :
    b ∈ n.dag.headers ∧ (n.dag.selectedParentChain b).dropLast.length = height ∧
      n.executor.results.lookup height
        = (onChain start n.dag bodies (n.dag.selectedParentChain b).dropLast).results.lookup
            height := by
  have hknown := h.chain_known
  have htip := h.follows.height_eq hcode hstart hknown
  -- the height has been executed, so that the block is on the chain
  have hle : height ≤ n.executor.height := by
    obtain ⟨outcome, hout, -⟩ := Option.map_eq_some_iff.mp hb
    obtain ⟨hheight, hbooked, -⟩ := onChain_facts hcode hstart bodies hknown
    rw [htip, ← hheight, ← hbooked.mem_results, h.follows.like.results]
    exact Maps.mem_of_lookup hout
  have hat := (h.onSelectedChain hcode hstart).hash_at height hle
  rw [hb] at hat
  have hchain : b ∈ n.dag.selectedParentChain n.executor.tip :=
    List.mem_reverse.mp (List.mem_of_getElem? hat.symm)
  have hmem : b ∈ n.dag.headers :=
    (h.valid.anc_of_mem_chain h.tip_mem hchain).mem h.valid.layered.toRooted h.tip_mem
  obtain ⟨newer, hsplit⟩ := h.valid.chain_split h.tip_mem hchain
  have hne : n.dag.selectedParentChain b ≠ [] := List.ne_nil_of_mem
    (List.mem_of_mem_head? (h.valid.head?_chain hmem))
  -- the place of the block on its own chain is its height
  have hlen : (n.dag.selectedParentChain b).dropLast.length = height := by
    have hpos : 0 < (n.dag.selectedParentChain b).length := List.length_pos_iff.mpr hne
    have hplace : (n.dag.selectedParentChain n.executor.tip).reverse[
        (n.dag.selectedParentChain b).dropLast.length]? = some b := by
      rw [hsplit, List.reverse_append, List.length_dropLast,
        List.getElem?_append_left (by rw [List.length_reverse]; omega),
        List.getElem?_reverse (by omega), Nat.sub_self, ← List.head?_eq_getElem?,
        h.valid.head?_chain hmem]
    have hnodup := List.nodup_reverse.mpr (h.valid.nodup_chain h.tip_mem)
    refine (List.getElem?_inj ?_ hnodup).mp (hplace.trans hat)
    rw [List.length_reverse, hsplit, List.length_append, List.length_dropLast]
    omega
  refine ⟨hmem, hlen, ?_⟩
  have hsplit' : (n.dag.selectedParentChain n.executor.tip).dropLast
      = newer ++ (n.dag.selectedParentChain b).dropLast := by
    rw [hsplit, List.dropLast_append_of_ne_nil hne]
  rw [← h.follows.like.results, hsplit']
  rw [hsplit'] at hknown
  exact lookup_onChain_append hcode hstart hknown hlen.ge

/-- **What is recorded for a height depends on the chain block there.** -/
theorem NodeInv.outcome_eq {n' : Node} (hcode : CodeByHash codeOf) (hstart : Start codeOf start)
    (h : NodeInv codeOf start bodies n) (h' : NodeInv codeOf start bodies n')
    (hk : n.dag.k = n'.dag.k) (hlimit : n.dag.mergesetSizeLimit = n'.dag.mergesetSizeLimit)
    (hno : NoCollision n.dag n'.dag) {height : ℕ} {b : BlockHash}
    (hb : n.executor.hashAt height = some b) (hb' : n'.executor.hashAt height = some b) :
    n.executor.results.lookup height = n'.executor.results.lookup height := by
  obtain ⟨hmem, -, hresult⟩ := h.chain_at hcode hstart hb
  obtain ⟨hmem', -, hresult'⟩ := h'.chain_at hcode hstart hb'
  have hagree := agreeOn_past h.valid h'.valid
    (Option.some.inj (h.genesis_at.symm.trans h'.genesis_at)) hk hlimit hno hmem hmem'
  rw [hresult, hresult', ← hagree.selectedParentChain_eq (Anc.refl b)]
  rw [onChain_of_agree hagree h.valid start bodies fun x hx =>
    h.valid.anc_of_mem_chain hmem (List.dropLast_subset _ hx)]

end Advance

end Node

end Chainname
