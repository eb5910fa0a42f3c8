import Chainname.Ghostdag.Colouring
import Chainname.Ghostdag.Ladder
import Chainname.Ghostdag.Mining

/-!
# Exact anticone counts

The counters of a block are built by testing one direction of concurrency, and patched when a later
candidate is accepted. This counts the anticone of each blue in the blue set of the block exactly:
candidates come in topological order, and none lies behind the selected parent, so one direction
is enough (`Turn.concurrent_iff`, `length_apart`).

`Admits` is the rule the code then follows, with the blues of the block itself counted as they are
and those of the chain as the chain blocks recorded them. The candidate's own counter is an `u16`.
It is compared with `k` after each addition, which keeps it exact unless `k` is the largest value,
where it wraps and passes. So the counters of a block are exact if and only if no candidate that
the rule admits is concurrent with more than `k` blues (`Valid.colouredExactly_iff`).
-/

namespace Chainname.DagStore

open Memo

/-! ### Anticones -/

open Classical in
/-- The members of a set of blocks that lie in the anticone of a block. -/
noncomputable def anticoneIn (D : DagStore) (S : Finset BlockHash) (b : BlockHash) :
    Finset BlockHash :=
  S.filter (D.Concurrent b)

/-- The blue set of a block with these blues over a selected parent. -/
def blueSet (D : DagStore) (selectedParent : BlockHash) (blues : List BlockHash) :
    Finset BlockHash :=
  blues.toFinset ∪ D.bluePast selectedParent

section Anticone

variable {D : DagStore} {S T : Finset BlockHash} {b c x : BlockHash}

theorem Concurrent.symm (h : D.Concurrent b c) : D.Concurrent c b := And.symm h

theorem mem_anticoneIn : x ∈ D.anticoneIn S b ↔ x ∈ S ∧ D.Concurrent b x := by
  simp [anticoneIn]

theorem anticoneIn_mono (h : S ⊆ T) : D.anticoneIn S b ⊆ D.anticoneIn T b := by
  intro x hx
  obtain ⟨hxS, hxb⟩ := mem_anticoneIn.mp hx
  exact mem_anticoneIn.mpr ⟨h hxS, hxb⟩

/-- A new member counts for the blocks it is concurrent with. -/
theorem card_anticoneIn_insert_of_concurrent (hc : c ∉ S) (h : D.Concurrent b c) :
    (D.anticoneIn (insert c S) b).card = (D.anticoneIn S b).card + 1 := by
  have hnew : c ∉ D.anticoneIn S b := fun hmem => hc (mem_anticoneIn.mp hmem).1
  rw [← Finset.card_insert_of_notMem hnew]
  unfold anticoneIn
  rw [Finset.filter_insert, if_pos h]

/-- A new member does not count for the others. -/
theorem anticoneIn_insert_of_not_concurrent (h : ¬ D.Concurrent b c) :
    D.anticoneIn (insert c S) b = D.anticoneIn S b := by
  unfold anticoneIn
  rw [Finset.filter_insert, if_neg h]

theorem not_concurrent_self (b : BlockHash) : ¬ D.Concurrent b b := fun h => h.1 (Anc.refl b)

theorem mem_blueSet {s : BlockHash} {blues : List BlockHash} :
    x ∈ D.blueSet s blues ↔ x ∈ blues ∨ x ∈ D.bluePast s := by
  unfold blueSet
  rw [Finset.mem_union, List.mem_toFinset]

theorem blueSet_append (s : BlockHash) (blues : List BlockHash) (c : BlockHash) :
    D.blueSet s (blues ++ [c]) = insert c (D.blueSet s blues) := by
  ext x
  simp only [mem_blueSet, List.mem_append, List.mem_singleton, Finset.mem_insert]
  tauto

theorem blueSet_mono {s : BlockHash} {blues blues' : List BlockHash} (h : blues ⊆ blues') :
    D.blueSet s blues ⊆ D.blueSet s blues' := by
  intro x hx
  exact mem_blueSet.mpr ((mem_blueSet.mp hx).imp_left fun hx => h hx)

end Anticone

/-! ### The rule, with exact counts -/

/-- **The k-cluster rule.** There is room among the blues of the block, the count of the candidate
passes, the blues of the block that are concurrent with it have fewer than `k` concurrent blues,
and those of the chain were recorded with fewer. -/
structure Admits (D : DagStore) (s : BlockHash) (blues : List BlockHash) (c : BlockHash) :
    Prop where
  room : blues.length ≤ D.k.toNat
  own : Passes D.k (D.anticoneIn (D.blueSet s blues) c).card
  new : ∀ b ∈ blues, D.Concurrent b c → (D.anticoneIn (D.blueSet s blues) b).card < D.k.toNat
  old : ∀ e ∈ D.chainNoted s, D.Concurrent e.1 c → e.2 < D.k

/-- A condition on every candidate that the rule admits, the candidates taken in order. -/
def Throughout (D : DagStore) (s : BlockHash) (Q : List BlockHash → BlockHash → Prop) :
    List BlockHash → List BlockHash → Prop
  | _, [] => True
  | blues, c :: candidates =>
    (D.Admits s blues c → Q blues c ∧ Throughout D s Q (blues ++ [c]) candidates) ∧
      (¬ D.Admits s blues c → Throughout D s Q blues candidates)

/-- A candidate with at most `k` blues in its anticone. -/
def Own (D : DagStore) (s : BlockHash) (blues : List BlockHash) (c : BlockHash) : Prop :=
  (D.anticoneIn (D.blueSet s blues) c).card ≤ D.k.toNat

/-- The blues given out so far: none twice, and none but the selected parent in its past. -/
structure BluesOver (D : DagStore) (s : BlockHash) (blues : List BlockHash) : Prop where
  nodup : blues.Nodup
  outside : ∀ b ∈ blues, b = s ∨ ¬ D.Anc b s

/-- A candidate at its turn: neither behind the selected parent nor behind a blue. -/
structure Turn (D : DagStore) (s : BlockHash) (blues : List BlockHash) (c : BlockHash) :
    Prop where
  outside : ¬ D.Anc c s
  later : ∀ b ∈ blues, ¬ D.Anc c b

/-- The counters of the blues are exact, and none is over `k`. -/
def Counted (D : DagStore) (s : BlockHash) (blues : List BlockHash)
    (sizes : Map BlockHash UInt16) : Prop :=
  ∀ b ∈ blues, ∃ size, sizes.lookup b = some size ∧
    size.toNat = (D.anticoneIn (D.blueSet s blues) b).card ∧ size ≤ D.k

section Turns

variable {D : DagStore} {s c : BlockHash} {blues : List BlockHash}

/-- At its turn a candidate is concurrent with a blue exactly if that is not behind it. -/
theorem Turn.concurrent_iff [HeaderHash] (hD : D.Valid) (hs : s ∈ D.headers)
    (h : D.Turn s blues c) {x : BlockHash} (hx : x ∈ D.blueSet s blues) :
    D.Concurrent c x ↔ ¬ D.Anc x c := by
  refine ⟨fun hcon => hcon.2, fun hanc => ⟨fun hcx => ?_, hanc⟩⟩
  obtain hx | hx := mem_blueSet.mp hx
  · exact h.later x hx hcx
  · exact h.outside (hcx.trans (hD.anc_of_mem_bluePast hs hx).1)

/-- A candidate is no blue yet. -/
theorem Turn.notMem [HeaderHash] (hD : D.Valid) (hs : s ∈ D.headers) (h : D.Turn s blues c) :
    c ∉ D.blueSet s blues := by
  intro hc
  obtain hc | hc := mem_blueSet.mp hc
  · exact h.later c hc (Anc.refl c)
  · exact h.outside (hD.anc_of_mem_bluePast hs hc).1

theorem BluesOver.append (h : D.BluesOver s blues) (hturn : D.Turn s blues c) :
    D.BluesOver s (blues ++ [c]) := by
  refine ⟨?_, fun b hb => ?_⟩
  · refine List.nodup_append.mpr ⟨h.nodup, List.nodup_singleton c, fun a ha b hb hab => ?_⟩
    obtain rfl := List.mem_singleton.mp hb
    exact hturn.later a ha (hab ▸ Anc.refl a)
  · obtain hb | hb := List.mem_append.mp hb
    · exact h.outside b hb
    · exact .inr (List.mem_singleton.mp hb ▸ hturn.outside)

/-- The blues of the block are not in the blue past of its selected parent. -/
theorem BluesOver.disjoint [HeaderHash] (hD : D.Valid) (hs : s ∈ D.headers)
    (h : D.BluesOver s blues) {x : BlockHash} (hx : x ∈ blues) : x ∉ D.bluePast s := by
  intro hpast
  obtain ⟨hanc, hne⟩ := hD.anc_of_mem_bluePast hs hpast
  exact (h.outside x hx).elim hne fun hout => hout hanc

variable [HeaderHash] (hD : D.Valid) (hs : s ∈ D.headers) (hover : D.BluesOver s blues)
  {sizes : Map BlockHash UInt16}

omit [HeaderHash] in
theorem mem_map_fst_apart {x : BlockHash} : x ∈ (D.apart s c blues sizes).map Prod.fst ↔
    x ∈ D.blueSet s blues ∧ ¬ D.Anc x c := by
  have hmem : x ∈ (noted sizes blues ++ D.chainNoted s).map Prod.fst ↔ x ∈ D.blueSet s blues := by
    rw [List.map_append, List.mem_append, map_fst_noted, mem_map_fst_chainNoted, mem_blueSet]
  rw [← hmem]
  refine ⟨?_, ?_⟩
  · intro hx
    obtain ⟨e, he, rfl⟩ := List.mem_map.mp hx
    obtain ⟨he, hout⟩ := mem_outside.mp he
    exact ⟨List.mem_map_of_mem he, hout⟩
  · rintro ⟨hx, hout⟩
    obtain ⟨e, he, rfl⟩ := List.mem_map.mp hx
    exact List.mem_map_of_mem (mem_outside.mpr ⟨he, hout⟩)

include hD hs hover

/-- No block is counted twice. -/
theorem nodup_apart : ((D.apart s c blues sizes).map Prod.fst).Nodup := by
  refine List.Nodup.sublist (List.Sublist.map Prod.fst List.filter_sublist) ?_
  rw [List.map_append, map_fst_noted]
  refine List.nodup_append'.mpr ⟨hover.nodup, hD.nodup_chainNoted hs, fun x hx hx' => ?_⟩
  exact hover.disjoint hD hs hx (mem_map_fst_chainNoted.mp hx')

variable (sizes) in
/-- The loops count the anticone of the candidate. -/
theorem length_apart (hturn : D.Turn s blues c) :
    (D.apart s c blues sizes).length = (D.anticoneIn (D.blueSet s blues) c).card := by
  have hset : ((D.apart s c blues sizes).map Prod.fst).toFinset
      = D.anticoneIn (D.blueSet s blues) c := by
    ext x
    rw [List.mem_toFinset, mem_map_fst_apart, mem_anticoneIn]
    exact and_congr_right fun hx => (hturn.concurrent_iff hD hs hx).symm
  rw [← hset, List.toFinset_card_of_nodup (nodup_apart hD hs hover), List.length_map]

/-- **What the code tests is the rule**, when the counters of the block are exact. -/
theorem admits_iff (hturn : D.Turn s blues c) (hcounted : D.Counted s blues sizes) :
    (∃ r, blues.length ≤ D.k.toNat ∧ Counts D.k (D.apart s c blues sizes) 0 [] r) ↔
      D.Admits s blues c := by
  have hlen := length_apart hD hs hover sizes hturn
  -- an entry of the block's own blues holds the count of its anticone
  have hnoted : ∀ b ∈ blues, ∃ size, (b, size) ∈ noted sizes blues ∧
      size.toNat = (D.anticoneIn (D.blueSet s blues) b).card := by
    intro b hb
    obtain ⟨size, hl, hsize, -⟩ := hcounted b hb
    refine ⟨size, mem_noted.mpr ⟨hb, ?_⟩, hsize⟩
    rw [hl]
    rfl
  refine ⟨?_, ?_⟩
  · rintro ⟨r, hroom, hpasses, hall, -⟩
    rw [Nat.zero_add, hlen] at hpasses
    refine ⟨hroom, hpasses, fun b hb hcon => ?_, fun e he hcon => hall e ?_⟩
    · obtain ⟨size, hmem, hsize⟩ := hnoted b hb
      rw [← hsize]
      exact UInt16.lt_iff_toNat_lt.mp
        (hall _ (mem_outside.mpr ⟨List.mem_append_left _ hmem, hcon.1⟩))
    · exact mem_outside.mpr ⟨List.mem_append_right _ he, hcon.1⟩
  · intro h
    refine ⟨_, h.room, ?_, fun e he => ?_, rfl⟩
    · rw [Nat.zero_add, hlen]
      exact h.own
    obtain ⟨he, hout⟩ := mem_outside.mp he
    have hmem : e.1 ∈ D.blueSet s blues :=
      (mem_map_fst_apart.mp (List.mem_map_of_mem (mem_outside.mpr ⟨he, hout⟩))).1
    have hcon := ((hturn.concurrent_iff hD hs hmem).mpr hout).symm
    obtain he | he := List.mem_append.mp he
    · obtain ⟨hb, hsize⟩ := mem_noted.mp he
      obtain ⟨size, hl, hcard, -⟩ := hcounted e.1 hb
      rw [hsize, hl]
      refine UInt16.lt_iff_toNat_lt.mpr ?_
      rw [Option.getD_some, hcard]
      exact h.new e.1 hb hcon
    · exact h.old e he hcon

omit hover in
/-- **An accepted candidate leaves the counters exact**, if its own count is at most `k`: the
counters of the blues concurrent with it rise, the others stay, and those of the chain are
written under keys that are no blues of the block. -/
theorem Counted.addBlue {st : Colouring} (hover : D.BluesOver s st.blues)
    (hturn : D.Turn s st.blues c) (hcounted : D.Counted s st.blues st.sizes)
    (hadmits : D.Admits s st.blues c) (hown : D.Own s st.blues c) :
    D.Counted s (st.addBlue c (UInt16.ofNat (D.apart s c st.blues st.sizes).length)
        (raised (D.apart s c st.blues st.sizes))).blues
      (st.addBlue c (UInt16.ofNat (D.apart s c st.blues st.sizes).length)
        (raised (D.apart s c st.blues st.sizes))).sizes := by
  have hkeys : (raised (D.apart s c st.blues st.sizes)).map Prod.fst
      = (D.apart s c st.blues st.sizes).map Prod.fst := by
    unfold raised
    rw [List.map_map]
    rfl
  have hread := fun (b : BlockHash) (size : UInt16) => Maps.lookup_foldl_insert (a := b) (v := size)
    (hkeys ▸ nodup_apart hD hs hover) (st.sizes.insert c
      (UInt16.ofNat (D.apart s c st.blues st.sizes).length))
  -- the candidate's own counter is written first, the raised ones over it
  have hc := hturn.notMem hD hs
  intro b hb
  change b ∈ st.blues ++ [c] at hb
  change ∃ size : UInt16, _ ∧
    size.toNat = (D.anticoneIn (D.blueSet s (st.blues ++ [c])) b).card ∧ _
  rw [blueSet_append]
  obtain hb | hb := List.mem_append.mp hb
  · obtain ⟨size, hl, hsize, hle⟩ := hcounted b hb
    have hbc : b ≠ c := fun he => hturn.later b hb (he ▸ Anc.refl b)
    by_cases hcon : D.Concurrent b c
    · -- the counter of a blue concurrent with the candidate is raised
      have hlt := hadmits.new b hb hcon
      have hsucc : (size + 1).toNat = size.toNat + 1 := by
        have hk := D.k.toNat_lt
        rw [UInt16.toNat_add, UInt16.toNat_one]
        omega
      refine ⟨size + 1, (hread b _).mpr (.inl ?_), ?_, ?_⟩
      · have hnoted : (b, size) ∈ noted st.sizes st.blues := by
          refine mem_noted.mpr ⟨hb, ?_⟩
          rw [hl]
          rfl
        have hapart := mem_outside.mpr ⟨List.mem_append_left (D.chainNoted s) hnoted, hcon.1⟩
        exact List.mem_map.mpr ⟨(b, size), hapart, rfl⟩
      · rw [hsucc, hsize, card_anticoneIn_insert_of_concurrent hc hcon]
      · rw [UInt16.le_iff_toNat_le, hsucc]
        omega
    · -- a blue behind the candidate keeps its counter
      refine ⟨size, (hread b size).mpr (.inr ⟨fun hmem => ?_, ?_⟩), ?_, hle⟩
      · rw [hkeys, mem_map_fst_apart] at hmem
        exact hcon ((hturn.concurrent_iff hD hs hmem.1).mpr hmem.2).symm
      · rw [Maps.lookup_insert, if_neg hbc]
        exact hl
      · rw [anticoneIn_insert_of_not_concurrent hcon]
        exact hsize
  · -- the candidate itself gets its own count
    obtain rfl := List.mem_singleton.mp hb
    have hlen := length_apart hD hs hover st.sizes hturn
    have hto : (UInt16.ofNat (D.apart s b st.blues st.sizes).length).toNat
        = (D.anticoneIn (D.blueSet s st.blues) b).card := by
      unfold Own at hown
      have hk := D.k.toNat_lt
      rw [UInt16.toNat_ofNat', hlen]
      omega
    refine ⟨UInt16.ofNat (D.apart s b st.blues st.sizes).length,
      (hread b _).mpr (.inr ⟨fun hmem => ?_, ?_⟩), ?_, ?_⟩
    · rw [hkeys, mem_map_fst_apart] at hmem
      exact hc hmem.1
    · rw [Maps.lookup_insert, if_pos rfl]
    · rw [anticoneIn_insert_of_not_concurrent (not_concurrent_self b), hto]
    · rw [UInt16.le_iff_toNat_le, hto]
      exact hown

end Turns

/-! ### The loop over the merge set -/

/-- What the loop can rely on: candidates to come in order, and exact counters so far. -/
structure Ready (D : DagStore) (s : BlockHash) (st : Colouring) (candidates : List BlockHash) :
    Prop where
  blues_over : D.BluesOver s st.blues
  counted : D.Counted s st.blues st.sizes
  turn : ∀ c ∈ candidates, D.Turn s st.blues c
  ordered : candidates.Pairwise fun a b => ¬ D.Anc b a

section Loop

variable {D : DagStore} {s c : BlockHash} {candidates : List BlockHash} {st : Colouring}

/-- The colouring after a candidate that the rule admits. -/
noncomputable def accepted (D : DagStore) (s : BlockHash) (st : Colouring) (c : BlockHash) :
    Colouring :=
  st.addBlue c (UInt16.ofNat (D.apart s c st.blues st.sizes).length)
    (raised (D.apart s c st.blues st.sizes))

theorem Ready.addRed (h : D.Ready s st (c :: candidates)) : D.Ready s (st.addRed c) candidates :=
  ⟨h.blues_over, h.counted, fun x hx => h.turn x (List.mem_cons_of_mem _ hx),
    List.Pairwise.of_cons h.ordered⟩

variable [HeaderHash] (hD : D.Valid) (hs : s ∈ D.headers)

include hD hs

theorem Ready.accepted (h : D.Ready s st (c :: candidates)) (hadmits : D.Admits s st.blues c)
    (hown : D.Own s st.blues c) : D.Ready s (D.accepted s st c) candidates := by
  have hturn := h.turn c List.mem_cons_self
  have hcounted := Counted.addBlue hD hs h.blues_over hturn h.counted hadmits hown
  refine ⟨h.blues_over.append hturn, hcounted, fun x hx => ?_, List.Pairwise.of_cons h.ordered⟩
  have hx' := h.turn x (List.mem_cons_of_mem _ hx)
  refine ⟨hx'.outside, fun b hb => ?_⟩
  obtain hb | hb := List.mem_append.mp hb
  · exact hx'.later b hb
  · -- a later candidate is not behind the one just accepted
    rw [List.mem_singleton.mp hb]
    exact List.rel_of_pairwise_cons h.ordered hx

/-- **One turn of the loop**: the candidate is blue if the rule admits it, and red otherwise. -/
theorem Ready.colourMergeset_cons (h : D.Ready s st (c :: candidates)) :
    (D.Admits s st.blues c ∧ D.colourMergeset (m := Id) D.truth s (c :: candidates) st
        = D.colourMergeset (m := Id) D.truth s candidates (D.accepted s st c)) ∨
      (¬ D.Admits s st.blues c ∧ D.colourMergeset (m := Id) D.truth s (c :: candidates) st
        = D.colourMergeset (m := Id) D.truth s candidates (st.addRed c)) := by
  have hadmits := admits_iff hD hs h.blues_over (h.turn c List.mem_cons_self) h.counted
  have hcons : D.colourMergeset (m := Id) D.truth s (c :: candidates) st
      = (D.colourCandidate (m := Id) D.truth c s st.blues st.sizes >>= fun r =>
        D.colourMergeset (m := Id) D.truth s candidates
          (if r.1 = .blue then st.addBlue c r.2.1 r.2.2 else st.addRed c) : Id Colouring) := by
    rw [id_bind]
    conv_lhs => unfold colourMergeset
    rw [id_bind]
    obtain ⟨colour, anticone, updates⟩ :=
      D.colourCandidate (m := Id) D.truth c s st.blues st.sizes
    cases colour with
    | blue => rfl
    | red => rfl
  rw [hcons, id_bind]
  -- the two ways `colourCandidate` ends decide the two sides
  obtain ⟨r, hroom, hcounts, hr⟩ | ⟨hnot, hr⟩ :=
    hD.colourCandidate_cases c hs st.blues st.sizes
  · refine .inl ⟨hadmits.mp ⟨r, hroom, hcounts⟩, ?_⟩
    rw [hr, hcounts.eq, Nat.zero_add, List.nil_append]
    rfl
  · refine .inr ⟨fun h => hnot (hadmits.mpr h), ?_⟩
    rw [hr]
    rfl

variable {Q : List BlockHash → BlockHash → Prop}

/-- **The run of the loop.** What each accepted candidate preserves, given a condition that holds
throughout, holds of the blues in the end, and their counters are exact. -/
theorem Ready.of_throughout (hQ : ∀ blues c, Q blues c → D.Own s blues c)
    {I : List BlockHash → Prop}
    (hI : ∀ blues c, D.Turn s blues c → D.Admits s blues c → Q blues c → I blues →
      I (blues ++ [c]))
    (h : D.Ready s st candidates) (hall : D.Throughout s Q st.blues candidates)
    (hstart : I st.blues) :
    D.Counted s (D.colourMergeset (m := Id) D.truth s candidates st).blues
        (D.colourMergeset (m := Id) D.truth s candidates st).sizes ∧
      I (D.colourMergeset (m := Id) D.truth s candidates st).blues := by
  -- induction on the candidates left; `I` is carried by the blues so far
  induction candidates generalizing st with
  | nil => exact ⟨h.counted, hstart⟩
  | cons c candidates ih =>
    obtain ⟨hadmits, hrun⟩ | ⟨hnot, hrun⟩ := h.colourMergeset_cons hD hs
    · obtain ⟨hq, hrest⟩ := hall.1 hadmits
      rw [hrun]
      exact ih (h.accepted hD hs hadmits (hQ _ _ hq)) hrest
        (hI _ _ (h.turn c List.mem_cons_self) hadmits hq hstart)
    · rw [hrun]
      exact ih h.addRed (hall.2 hnot) hstart

/-- A condition holds throughout if it holds of each candidate that ends up blue, given the blues
before it. -/
theorem Ready.throughout (hQ : ∀ blues c, Q blues c → D.Own s blues c)
    (h : D.Ready s st candidates)
    (hall : ∀ blues c,
      blues ++ [c] <+: (D.colourMergeset (m := Id) D.truth s candidates st).blues →
        D.Turn s blues c → D.Admits s blues c → Q blues c) :
    D.Throughout s Q st.blues candidates := by
  induction candidates generalizing st with
  | nil => trivial
  | cons c candidates ih =>
    obtain ⟨hadmits, hrun⟩ | ⟨hnot, hrun⟩ := h.colourMergeset_cons hD hs
    · rw [hrun] at hall
      -- `Q` is asked only of what the run itself accepts: the blues it ends with extend these
      refine ⟨fun _ => ?_, fun hnot => absurd hadmits hnot⟩
      have hprefix : st.blues ++ [c]
          <+: (D.colourMergeset (m := Id) D.truth s candidates (D.accepted s st c)).blues := by
        obtain ⟨blues, -, -, -, -, hblues, -⟩ :=
          colourMergeset_split D D.truth s candidates (D.accepted s st c)
        exact ⟨blues, hblues.symm⟩
      have hq := hall st.blues c hprefix (h.turn c List.mem_cons_self) hadmits
      exact ⟨hq, ih (h.accepted hD hs hadmits (hQ _ _ hq)) hall⟩
    · rw [hrun] at hall
      exact ⟨fun hadmits => absurd hadmits hnot, fun _ => @ih (st.addRed c) h.addRed hall⟩

end Loop

/-! ### The colouring of a stored block -/

/-- The colouring of a block: the selected parent comes first and is no member of the merge set,
the other blues and the reds partition it, and every counter is exact. -/
structure ColouredExactly (D : DagStore) (b : BlockHash) (data : GhostdagData) : Prop where
  selected : ∃ blues, data.mergesetBlues = data.selectedParent :: blues ∧
    (blues ++ data.mergesetReds).Perm data.mergesetOrdered ∧ blues.Disjoint data.mergesetReds
  selected_notMem : data.selectedParent ∉ data.mergesetOrdered
  nodup : data.mergesetOrdered.Nodup
  length_le : data.mergesetBlues.length ≤ D.k.toNat + 1
  exact : ∀ x ∈ data.mergesetBlues, ∃ size, data.bluesAnticoneSizes.lookup x = some size ∧
    size.toNat = (D.anticoneIn (D.bluePast b) x).card ∧ size ≤ D.k

/-- When the counters of a header over stored parents fit: `k` is not the largest value, or no
candidate that the rule admits is concurrent with more than `k` blues. -/
def CountsFit [HeaderHash] (D : DagStore) (header : Header) : Prop :=
  D.k.toNat = 65535 → ∀ mergeset,
    D.orderedMergeset (m := Id) D.truth header (D.selectParent header.parents) = .ok mergeset →
      D.Throughout (D.selectParent header.parents) (D.Own (D.selectParent header.parents))
        [D.selectParent header.parents] mergeset

section Stored

variable [HeaderHash] {D : DagStore} (hD : D.Valid)

include hD

/-- The selected parent is concurrent with no block of its blue past. -/
theorem Valid.anticoneIn_selected {s : BlockHash} (hs : s ∈ D.headers) :
    D.anticoneIn (D.blueSet s [s]) s = ∅ := by
  refine Finset.eq_empty_of_forall_notMem fun x hx => ?_
  obtain ⟨hx, hcon⟩ := mem_anticoneIn.mp hx
  obtain hx | hx := mem_blueSet.mp hx
  · rw [List.mem_singleton.mp hx] at hcon
    exact not_concurrent_self s hcon
  · exact hcon.2 (hD.anc_of_mem_bluePast hs hx).1

/-- The loop starts with the selected parent, of which nothing is counted yet. -/
theorem Valid.ready_start {s : BlockHash} (hs : s ∈ D.headers) {parents mergeset : List BlockHash}
    (h : D.IsMergeset parents s mergeset) : D.Ready s (.start s) mergeset := by
  refine ⟨⟨List.nodup_singleton s, fun b hb => .inl (List.mem_singleton.mp hb)⟩, fun b hb => ?_,
    fun c hc => ?_, h.ancestors_first⟩
  · obtain rfl := List.mem_singleton.mp hb
    refine ⟨0, Finmap.lookup_insert _, ?_, ?_⟩
    · change 0 = (D.anticoneIn (D.blueSet b [b]) b).card
      rw [hD.anticoneIn_selected hs, Finset.card_empty]
    · exact UInt16.zero_le
  · have hout := (h.mem_iff.mp hc).2
    refine ⟨hout, fun b hb => ?_⟩
    rw [List.mem_singleton.mp hb]
    exact hout

/-- How a stored block was coloured. -/
theorem Valid.coloured {b : BlockHash} {header : Header} {data : GhostdagData}
    (hl : D.headers.lookup b = some header) (hne : b ≠ D.genesis)
    (hdata : D.data.lookup b = some data) :
    data.selectedParent = D.selectParent header.parents ∧
      D.orderedMergeset (m := Id) D.truth header data.selectedParent = .ok data.mergesetOrdered ∧
      D.Ready data.selectedParent (.start data.selectedParent) data.mergesetOrdered ∧
      data.mergesetBlues = (D.colourMergeset (m := Id) D.truth data.selectedParent
        data.mergesetOrdered (.start data.selectedParent)).blues ∧
      data.bluesAnticoneSizes = (D.colourMergeset (m := Id) D.truth data.selectedParent
        data.mergesetOrdered (.start data.selectedParent)).sizes ∧
      D.bluePast b = D.blueSet data.selectedParent data.mergesetBlues := by
  have hready := hD.ready_start (hD.selected_mem hdata) (hD.describes hl hne hdata).mergeset
  have hpast := hD.bluePast_eq hdata hne
  obtain ⟨data', hdata', hcomp⟩ := hD.data_eq hl hne
  obtain rfl := Option.some.inj (hdata'.symm.trans hdata)
  obtain ⟨selectedData, mergeset, -, hmergeset, rfl⟩ := computeGhostdag_ok hcomp
  exact ⟨rfl, hmergeset, hready, rfl, rfl, hpast⟩

/-- **The colouring of a stored block is exact** if and only if its counters fit. -/
theorem Valid.colouredExactly_iff {b : BlockHash} {header : Header} {data : GhostdagData}
    (hl : D.headers.lookup b = some header) (hne : b ≠ D.genesis)
    (hdata : D.data.lookup b = some data) : D.ColouredExactly b data ↔ D.CountsFit header := by
  obtain ⟨hselected, hmergeset, hready, hblues, hsizes, hpast⟩ := hD.coloured hl hne hdata
  have hs := hD.selected_mem hdata
  have hdesc := hD.describes hl hne hdata
  refine ⟨?_, ?_⟩
  · intro h hk mergeset hok
    rw [← hselected] at hok ⊢
    obtain rfl := Except.ok.inj (hmergeset.symm.trans hok)
    refine hready.throughout hD hs (fun _ _ h => h) fun blues c hprefix _ _ => ?_
    rw [← hblues] at hprefix
    -- what is counted when the candidate is accepted is counted in the end
    have hc := hprefix.subset (List.mem_append_right _ (List.mem_singleton.mpr rfl))
    obtain ⟨size, -, hsize, -⟩ := h.exact c hc
    have hsub : D.blueSet data.selectedParent blues ⊆ D.bluePast b := by
      rw [hpast]
      exact blueSet_mono fun x hx => hprefix.subset (List.mem_append_left _ hx)
    have hle := Finset.card_le_card (anticoneIn_mono (D := D) (b := c) hsub)
    have hlt := size.toNat_lt
    unfold Own
    omega
  · intro h
    have hall : D.Throughout data.selectedParent (D.Own data.selectedParent)
        [data.selectedParent] data.mergesetOrdered := by
      by_cases hk : D.k.toNat = 65535
      · rw [hselected] at hmergeset ⊢
        exact h hk _ hmergeset
      · -- below the largest value the comparison with `k` is exact
        have hlt := D.k.toNat_lt
        exact hready.throughout hD hs (fun _ _ h => h) fun blues c _ _ hadmits =>
          hadmits.own (by omega)
    have hroom : ∀ blues c, D.Turn data.selectedParent blues c →
        D.Admits data.selectedParent blues c → D.Own data.selectedParent blues c →
          blues.length ≤ D.k.toNat + 1 → (blues ++ [c]).length ≤ D.k.toNat + 1 := by
      intro blues c _ hadmits _ _
      rw [List.length_append, List.length_singleton]
      exact Nat.succ_le_succ hadmits.room
    obtain ⟨hcounted, hlen⟩ := hready.of_throughout hD hs (fun _ _ h => h)
      (I := fun blues => blues.length ≤ D.k.toNat + 1) hroom hall (Nat.le_add_left _ _)
    rw [← hblues] at hcounted hlen
    rw [← hsizes] at hcounted
    obtain ⟨blues, hcons, hsub, hsub', hperm⟩ := hdesc.blues
    have hnodup := hperm.nodup_iff.mpr hdesc.mergeset.nodup
    refine ⟨⟨blues, hcons, hperm, (List.nodup_append'.mp hnodup).2.2⟩, fun hmem => ?_,
      hdesc.mergeset.nodup, hlen, ?_⟩
    · exact (hdesc.mergeset.mem_iff.mp hmem).2 (Anc.refl _)
    · rw [hpast]
      exact hcounted

omit hD in
/-- A chain block lies in the blue past of the head, unless it is the head. -/
theorem Valid.mem_blueSet_of_mem_chain (hD : D.Valid) {b x : BlockHash} (hb : b ∈ D.headers)
    (hx : x ∈ D.selectedParentChain b) : x ∈ D.blueSet b [b] := by
  induction b using hD.layered.wellFounded.induction with
  | _ b ih =>
    by_cases hne : b = D.genesis
    · rw [hne, selectedParentChain_genesis] at hx
      exact mem_blueSet.mpr (.inl (hne ▸ hx))
    obtain ⟨data, hdata⟩ := Maps.mem_iff_exists_lookup.mp (hD.data_mem.mpr hb)
    rw [hD.selectedParentChain_cons hdata hne, List.mem_cons] at hx
    obtain rfl | hx := hx
    · exact mem_blueSet.mpr (.inl List.mem_cons_self)
    have hmem := ih _ (hD.selected_edge hdata hne) (hD.selected_mem hdata) hx
    obtain ⟨blues, hblues, -, -⟩ := hD.blues_eq hdata hne
    refine mem_blueSet.mpr (.inr ?_)
    rw [hD.bluePast_eq hdata hne, hblues, Finset.mem_union, List.mem_toFinset, List.mem_cons]
    exact (mem_blueSet.mp hmem).imp_left fun hx => .inl (List.mem_singleton.mp hx)

/-- A chain of blocks with a single parent has recorded no concurrent blues. -/
theorem Valid.chainNoted_single {b : BlockHash} (hb : b ∈ D.headers)
    (hsingle : ∀ c header, c ∈ D.selectedParentChain b → D.headers.lookup c = some header →
      c ≠ D.genesis → ∃ p, header.parents = [p]) :
    ∀ e ∈ D.chainNoted b, e.2 = 0 := by
  -- along the selected chain: every block of it has one parent, hence an empty mergeset
  induction b using hD.layered.wellFounded.induction with
  | _ b ih =>
    by_cases hne : b = D.genesis
    · rw [hne, hD.chainNoted_genesis]
      exact fun e he => absurd he List.not_mem_nil
    obtain ⟨header, hl⟩ := Maps.mem_iff_exists_lookup.mp hb
    obtain ⟨data, hdata, hcomp⟩ := hD.data_eq hl hne
    have hchain := hD.selectedParentChain_cons hdata hne
    have hselected := hD.selected_mem hdata
    have hrest := ih _ (hD.selected_edge hdata hne) hselected fun c header hc =>
      hsingle c header (hchain ▸ List.mem_cons_of_mem _ hc)
    obtain ⟨p, hparents⟩ := hsingle b header (hchain ▸ List.mem_cons_self) hl hne
    have hp := hD.parent_mem (p := p) ⟨header, hl, hne, hparents ▸ List.mem_cons_self⟩
    obtain ⟨selectedData, hsel⟩ := Maps.mem_iff_exists_lookup.mp (hD.data_mem.mpr hp)
    rw [computeGhostdag_single hparents hsel] at hcomp
    rw [hD.chainNoted_eq hdata hne]
    intro e he
    obtain he | he := List.mem_append.mp he
    · -- what the block itself notes: its selected parent, at 0
      obtain rfl := Except.ok.inj hcomp
      obtain ⟨hmem, hsize⟩ := mem_noted.mp he
      obtain rfl := List.mem_singleton.mp hmem
      rw [hsize]
      exact congrArg (Option.getD · 0) (Finmap.lookup_insert _)
    · exact hrest e he

end Stored

/-- **Exact colouring** of the blocks whose counters fit, and of no other, in every run. -/
theorem colouredExactly_iff_countsFit [HeaderHash] (genesis : Header) (k : UInt16) (limit : ℕ)
    (headers : List Header) (b : BlockHash) (header : Header) (data : GhostdagData)
    (hl : ((new genesis k limit).addBlocks headers).headers.lookup b = some header)
    (hne : b ≠ genesis.hash)
    (hdata : ((new genesis k limit).addBlocks headers).data.lookup b = some data) :
    ((new genesis k limit).addBlocks headers).ColouredExactly b data ↔
      ((new genesis k limit).addBlocks headers).CountsFit header := by
  refine ((new_valid genesis k limit).addBlocks headers).colouredExactly_iff hl ?_ hdata
  rw [(addBlocks_fixed headers _).1]
  exact hne

open Sample

/-- The merging block of the diamond has an exact colouring. -/
theorem colouredExactly_diamond :
    ∃ data, ((new root 2 10).addBlocks diamond).data.lookup (hashOf 3) = some data ∧
      ((new root 2 10).addBlocks diamond).ColouredExactly (hashOf 3) data := by
  have hstored : ((new root 2 10).addBlocks diamond).headers.lookup (hashOf 3)
      = some (block 3 [1, 2] 0x2000ffff) := by decide +kernel
  have hvalid := (new_valid root 2 10).addBlocks diamond
  obtain ⟨data, hdata⟩ :=
    Maps.mem_iff_exists_lookup.mp (hvalid.data_mem.mpr (Maps.mem_of_lookup hstored))
  refine ⟨data, hdata, (colouredExactly_iff_countsFit root 2 10 diamond (hashOf 3) _ data hstored
    (by decide) hdata).mpr fun hk => ?_⟩
  rw [(addBlocks_fixed diamond _).2.1] at hk
  exact absurd hk (by decide)

/-! ### A counter that wraps -/

/-- The nonce of a block beside a ladder. -/
def aside : ℕ := 100000

/-- Two blocks on genesis, under the largest `k`. -/
def forked : DagStore :=
  (new root 65535 10).addBlocks [block 1 [0] 0x2000ffff, block aside [0] 0x2000ffff]

/-- The block that merges the other one with a ladder of `m` rungs. -/
def merging (m : ℕ) : Header := block (aside + 1) [m + 1, aside] 0x2000ffff

/-- The calls that build the ladder and merge. -/
def wrapping (m : ℕ) : List Header :=
  [block 1 [0] 0x2000ffff, block aside [0] 0x2000ffff] ++ rungs 0 m ++ [merging m]

section Wrap

variable {m : ℕ} (hm : m < aside - 2)

include hm

theorem foot_forked : Foot forked 0 m := by
  have haside : aside = 100000 := rfl
  refine ⟨(new_valid _ _ _).addBlocks _, by decide +kernel, fun i hi hmem => ?_, by omega, ?_⟩
  · -- nothing of the fork is a rung: its hashes are 0, 1 and `aside`
    obtain ⟨header, hl⟩ := Maps.mem_iff_exists_lookup.mp hmem
    obtain ⟨hstored, hhash⟩ := exists_header_of_mem hl
    have hone : hashOf (0 + i + 2) = hashOf 0 ∨ hashOf (0 + i + 2) = hashOf 1 ∨
        hashOf (0 + i + 2) = hashOf aside := by
      rw [← hhash]
      simp only [List.mem_cons, List.not_mem_nil, or_false] at hstored
      obtain rfl | rfl | rfl := hstored
      · exact .inl rfl
      · exact .inr (.inl rfl)
      · exact .inr (.inr rfl)
    obtain he | he | he := hone
    all_goals
      have := hashOf_injOn (by omega) (by omega) he
      omega
  · have hwork : forked.blueWork (hashOf (0 + 1)) = 512 := by decide +kernel
    have hmax : 2 ^ 64 ≤ U256.max := U256.two_pow_le_max (by decide)
    rw [hwork, rungWork_eq]
    omega

/-- The store before the merge: the top of the ladder outweighs the block beside it. -/
theorem laddered_facts (hpos : 0 < m) : (forked.addBlocks (rungs 0 m)).Valid ∧
    hashOf (m + 1) ∈ (forked.addBlocks (rungs 0 m)).headers ∧
    hashOf aside ∈ (forked.addBlocks (rungs 0 m)).tips ∧
    hashOf (aside + 1) ∉ (forked.addBlocks (rungs 0 m)).headers ∧
    (forked.addBlocks (rungs 0 m)).selectedParentChain (hashOf (m + 1))
      = rungHashes 0 m ++ [hashOf 1, hashOf 0] ∧
    (forked.addBlocks (rungs 0 m)).headers.lookup (hashOf aside)
      = some (block aside [0] 0x2000ffff) ∧
    (forked.addBlocks (rungs 0 m)).blueWork (hashOf aside)
      < (forked.addBlocks (rungs 0 m)).blueWork (hashOf (m + 1)) := by
  have haside : aside = 100000 := rfl
  have hstood := stood (foot_forked hm)
  have hagree := hstood.agree
  have hmem : hashOf aside ∈ forked.headers := by decide +kernel
  have hzero : 0 + m + 1 = m + 1 := by rw [Nat.zero_add]
  have htips := hstood.tips
  have hchain := hstood.chain
  have hwork := hstood.work
  rw [hzero] at htips hchain hwork
  refine ⟨hstood.valid, ?_, ?_, fun hmem => ?_, ?_, ?_, ?_⟩
  · -- the top rung is a tip
    refine (hstood.valid.mem_tips.mp ?_).1
    rw [htips]
    exact Finset.mem_insert_self _ _
  · rw [htips]
    refine Finset.mem_insert_of_mem ?_
    decide +kernel
  · -- the merging block is neither in the fork nor a rung
    obtain hmem | hmem := (hstood.mem _).mp hmem
    · revert hmem
      decide +kernel
    · obtain ⟨i, hi, he⟩ := mem_rungHashes.mp hmem
      have := hashOf_injOn (by omega) (by omega) he
      omega
  · rw [hchain]
    refine congrArg _ ?_
    decide +kernel
  · -- the ladder outweighs the block aside, which stays at its 512
    rw [← hagree.header_eq hmem]
    decide +kernel
  · have hone : forked.blueWork (hashOf (0 + 1)) = 512 := by decide +kernel
    have htwo : forked.blueWork (hashOf aside) = 512 := by decide +kernel
    rw [hone, rungWork_eq] at hwork
    rw [← hagree.blueWork_eq hmem, htwo, hwork]
    omega

omit hm in
/-- Every block of the store but genesis has one parent. -/
theorem laddered_single {c : BlockHash} {header : Header}
    (hl : (forked.addBlocks (rungs 0 m)).headers.lookup c = some header) (hne : c ≠ hashOf 0) :
    ∃ p, header.parents = [p] := by
  unfold forked at hl
  rw [← addBlocks_append] at hl
  obtain ⟨hmem, rfl⟩ := exists_header_of_mem hl
  obtain rfl | hmem := List.mem_cons.mp hmem
  · exact absurd rfl hne
  obtain hmem | hmem := List.mem_append.mp hmem
  · rw [List.mem_cons, List.mem_singleton] at hmem
    obtain rfl | rfl := hmem
    · exact ⟨hashOf 0, rfl⟩
    · exact ⟨hashOf 0, rfl⟩
  · obtain ⟨i, -, rfl⟩ := List.mem_map.mp hmem
    exact ⟨hashOf (0 + (i + 1)), rfl⟩

/-- The blocks behind the one beside the ladder, and what it lies behind. -/
theorem laddered_anc (hpos : 0 < m) {x : BlockHash} :
    ((forked.addBlocks (rungs 0 m)).Anc x (hashOf aside) → x = hashOf aside ∨ x = hashOf 0) ∧
      ((forked.addBlocks (rungs 0 m)).Anc (hashOf aside) x → x = hashOf aside) := by
  obtain ⟨hvalid, -, htip, -, -, hl, -⟩ := laddered_facts hm hpos
  have hgenesis : (forked.addBlocks (rungs 0 m)).genesis = hashOf 0 :=
    (addBlocks_fixed (rungs 0 m) forked).1.trans (addBlocks_fixed _ (new root 65535 10)).1
  refine ⟨fun hanc => ?_, fun hanc => ?_⟩
  · by_cases hne : x = hashOf aside
    · exact .inl hne
    obtain ⟨p, ⟨header, hl', -, hp⟩, hxp⟩ := hanc.exists_parent hne
    obtain rfl := Option.some.inj (hl'.symm.trans hl)
    obtain rfl : p = hashOf 0 := List.mem_singleton.mp hp
    rw [← hgenesis] at hxp ⊢
    exact .inr hxp.eq_genesis
  · by_contra hne
    obtain ⟨c, hc, -⟩ := hanc.exists_child (Ne.symm hne)
    exact (hvalid.mem_tips.mp htip).2 c hc

/-- The merging block selects the top of the ladder, has the other block for a merge set, and
joins. -/
theorem merging_joins (hpos : 0 < m) :
    (forked.addBlocks (rungs 0 m)).selectParent (merging m).parents = hashOf (m + 1) ∧
    (∀ {x}, (forked.addBlocks (rungs 0 m)).InMergeset (merging m).parents (hashOf (m + 1)) x ↔
      x = hashOf aside) ∧
    ((forked.addBlocks (rungs 0 m)).addBlock (merging m)).2 = .ok (hashOf (aside + 1)) := by
  obtain ⟨hvalid, htop, htip, hnew, -, hl, hwork⟩ := laddered_facts hm hpos
  have haside : aside = 100000 := rfl
  have hgenesis : (forked.addBlocks (rungs 0 m)).genesis = hashOf 0 :=
    (addBlocks_fixed (rungs 0 m) forked).1.trans (addBlocks_fixed _ (new root 65535 10)).1
  have hhash : (merging m).hash = hashOf (aside + 1) := block_hash (by omega) _ _
  have hparents : (merging m).parents = [hashOf (m + 1), hashOf aside] := rfl
  have hselected : (forked.addBlocks (rungs 0 m)).selectParent (merging m).parents
      = hashOf (m + 1) := by
    rw [hparents]
    refine if_neg (compareBlocks_ne_gt.mpr ?_)
    exact .inl hwork
  have hmergeset : ∀ {x}, (forked.addBlocks (rungs 0 m)).InMergeset (merging m).parents
      (hashOf (m + 1)) x ↔ x = hashOf aside := by
    intro x
    obtain ⟨hback, hahead⟩ := laddered_anc hm hpos (x := x)
    refine ⟨?_, ?_⟩
    · -- behind a parent and not behind the top rung leaves only the block aside
      rintro ⟨⟨p, hp, hxp⟩, hout⟩
      rw [hparents, List.mem_cons, List.mem_singleton] at hp
      obtain rfl | rfl := hp
      · exact absurd hxp hout
      · refine (hback hxp).resolve_right fun hx => hout ?_
        rw [hx, ← hgenesis]
        exact hvalid.layered.genesis_anc htop
    · rintro rfl
      refine ⟨⟨hashOf aside, hparents ▸ List.mem_cons_of_mem _ List.mem_cons_self, Anc.refl _⟩,
        fun hanc => ?_⟩
      have := hashOf_injOn (by omega) (by omega) ((laddered_anc hm hpos).2 hanc)
      omega
  refine ⟨hselected, hmergeset, ?_⟩
  rw [← hhash]
  -- fresh, with both parents stored, and a mergeset of one block is within the limit
  refine (hvalid.addBlock_ok_iff (merging m)).mpr ⟨⟨?_, ?_, ?_⟩, ?_⟩
  · rw [hhash]
    exact hnew
  · rw [hparents]
    exact List.cons_ne_nil _ _
  · rw [hparents]
    refine List.forall_mem_cons.mpr ⟨htop, List.forall_mem_singleton.mpr ?_⟩
    exact (hvalid.mem_tips.mp htip).1
  · have hset : (forked.addBlocks (rungs 0 m)).mergesetOf (merging m).parents
        = {hashOf aside} := by
      ext x
      unfold mergesetOf
      rw [hselected]
      exact hmergeset
    rw [hset, Set.ncard_singleton, (addBlocks_fixed (rungs 0 m) forked).2.2]
    decide +kernel

/-- A store with the block that merges. -/
structure Merged (m : ℕ) (D : DagStore) : Prop where
  valid : D.Valid
  agree : AgreeOn (· ∈ (forked.addBlocks (rungs 0 m)).headers) (forked.addBlocks (rungs 0 m)) D
  stored : D.headers.lookup (hashOf (aside + 1)) = some (merging m)

theorem merged_addBlock (hpos : 0 < m) :
    Merged m ((forked.addBlocks (rungs 0 m)).addBlock (merging m)).1 := by
  have haside : aside = 100000 := rfl
  obtain ⟨hvalid, -⟩ := laddered_facts hm hpos
  obtain ⟨-, -, hok⟩ := merging_joins hm hpos
  have hhash : (merging m).hash = hashOf (aside + 1) := block_hash (by omega) _ _
  refine ⟨hvalid.addBlock (merging m), hvalid.addBlock_agree (merging m), ?_⟩
  rw [(headers_addBlock_of_ok hok).2, hhash, Finmap.lookup_insert]

section Merged

variable {D : DagStore} (h : Merged m D)

include h

omit hm in
theorem Merged.k_eq : D.k = 65535 :=
  h.agree.k_eq.symm.trans (addBlocks_fixed (rungs 0 m) forked).2.1

omit hm in
theorem Merged.genesis_eq : D.genesis = hashOf 0 := by
  rw [← h.agree.genesis_eq, (addBlocks_fixed (rungs 0 m) forked).1]
  exact (addBlocks_fixed _ (new root 65535 10)).1

omit hm in
theorem Merged.ne_genesis : hashOf (aside + 1) ≠ D.genesis := by
  have haside : aside = 100000 := rfl
  rw [h.genesis_eq]
  exact fun he => absurd (hashOf_injOn (by omega) (by omega) he) (Nat.succ_ne_zero _)

theorem Merged.selectParent_eq (hpos : 0 < m) :
    D.selectParent (merging m).parents = hashOf (m + 1) := by
  obtain ⟨hvalid, htop, htip, -⟩ := laddered_facts hm hpos
  have hparents : ∀ p ∈ (merging m).parents, p ∈ (forked.addBlocks (rungs 0 m)).headers :=
    List.forall_mem_cons.mpr ⟨htop, List.forall_mem_singleton.mpr (hvalid.mem_tips.mp htip).1⟩
  rw [← selectParent_congr h.agree hparents (List.cons_ne_nil _ _)]
  exact (merging_joins hm hpos).1

/-- The merge set is the block beside the ladder alone. -/
theorem Merged.mergeset (hpos : 0 < m) {data : GhostdagData}
    (hdata : D.data.lookup (hashOf (aside + 1)) = some data) :
    data.selectedParent = hashOf (m + 1) ∧ data.mergesetOrdered = [hashOf aside] := by
  obtain ⟨hvalid, htop, htip, -⟩ := laddered_facts hm hpos
  have hside := (hvalid.mem_tips.mp htip).1
  have hsel : data.selectedParent = hashOf (m + 1) :=
    (h.valid.coloured h.stored h.ne_genesis hdata).1.trans (h.selectParent_eq hm hpos)
  refine ⟨hsel, ?_⟩
  have hdesc := (h.valid.describes h.stored h.ne_genesis hdata).mergeset
  -- the mergeset of the merging block is read off the store it was added to
  have hmem : ∀ x, x ∈ data.mergesetOrdered ↔ x ∈ [hashOf aside] := by
    intro x
    rw [hdesc.mem_iff, hsel, List.mem_singleton, ← (merging_joins hm hpos).2.1]
    have hback : ∀ p ∈ (merging m).parents,
        ((forked.addBlocks (rungs 0 m)).Anc x p ↔ D.Anc x p) := by
      refine List.forall_mem_cons.mpr ⟨h.agree.anc_iff htop, ?_⟩
      exact List.forall_mem_singleton.mpr (h.agree.anc_iff hside)
    unfold InMergeset
    rw [h.agree.anc_iff htop]
    refine and_congr_left fun _ => ⟨?_, ?_⟩
    · rintro ⟨p, hp, hxp⟩
      exact ⟨p, hp, (hback p hp).mpr hxp⟩
    · rintro ⟨p, hp, hxp⟩
      exact ⟨p, hp, (hback p hp).mp hxp⟩
  exact List.perm_singleton.mp
    ((List.perm_ext_iff_of_nodup hdesc.nodup (List.nodup_singleton _)).mpr hmem)

/-- With the largest `k`, and no counts recorded along the ladder, the rule admits the block. -/
theorem Merged.admits (hpos : 0 < m) :
    D.Admits (hashOf (m + 1)) [hashOf (m + 1)] (hashOf aside) := by
  obtain ⟨hvalid, htop, -⟩ := laddered_facts hm hpos
  have htop' : hashOf (m + 1) ∈ D.headers := h.agree.mem' htop
  -- no block of the chain merges anything, so every counter it carries is 0
  have hnone : ∀ e ∈ D.chainNoted (hashOf (m + 1)), e.2 = 0 := by
    refine h.valid.chainNoted_single htop' fun c header hc hl hne => ?_
    rw [← h.agree.selectedParentChain_eq htop] at hc
    have hmem := (hvalid.anc_of_mem_chain htop hc).mem hvalid.layered.toRooted htop
    rw [← h.agree.header_eq hmem] at hl
    exact laddered_single hl (h.genesis_eq ▸ hne)
  refine ⟨?_, fun hlt => ?_, fun b hb _ => ?_, fun e he _ => ?_⟩
  · rw [h.k_eq]
    exact (by decide : 1 ≤ (65535 : UInt16).toNat)
  · rw [h.k_eq] at hlt
    exact absurd hlt (by decide)
  · rw [List.mem_singleton.mp hb, h.valid.anticoneIn_selected htop', h.k_eq]
    decide
  · rw [hnone e he, h.k_eq]
    decide

/-- The rungs and the block below them are all concurrent with the block beside the ladder. -/
theorem Merged.le_card_anticone (hpos : 0 < m) :
    m + 1 ≤ (D.anticoneIn (D.blueSet (hashOf (m + 1)) [hashOf (m + 1)]) (hashOf aside)).card := by
  have haside : aside = 100000 := rfl
  obtain ⟨hvalid, htop, htip, -, hchain, -, -⟩ := laddered_facts hm hpos
  have hside := (hvalid.mem_tips.mp htip).1
  have hsub : (Finset.range (m + 1)).image (fun i => hashOf (i + 1)) ⊆
      D.anticoneIn (D.blueSet (hashOf (m + 1)) [hashOf (m + 1)]) (hashOf aside) := by
    -- every rung is blue and apart from the block aside
    intro x hx
    obtain ⟨i, hi, rfl⟩ := Finset.mem_image.mp hx
    rw [Finset.mem_range] at hi
    have hmem : hashOf (i + 1) ∈ (forked.addBlocks (rungs 0 m)).selectedParentChain
        (hashOf (m + 1)) := by
      rw [hchain]
      cases i with
      | zero => simp
      | succ i =>
        refine List.mem_append_left _ (mem_rungHashes.mpr ⟨i, by omega, ?_⟩)
        rw [Nat.zero_add]
    have hin := (hvalid.anc_of_mem_chain htop hmem).mem hvalid.layered.toRooted htop
    obtain ⟨hback, hahead⟩ := laddered_anc hm hpos (x := hashOf (i + 1))
    refine mem_anticoneIn.mpr ⟨?_, fun hanc => ?_, fun hanc => ?_⟩
    · rw [h.agree.selectedParentChain_eq htop] at hmem
      exact h.valid.mem_blueSet_of_mem_chain (h.agree.mem' htop) hmem
    · have := hashOf_injOn (by omega) (by omega) (hahead ((h.agree.anc_iff hin).mpr hanc))
      omega
    · obtain he | he := hback ((h.agree.anc_iff hside).mpr hanc)
      · have := hashOf_injOn (by omega) (by omega) he
        omega
      · exact absurd (hashOf_injOn (by omega) (by omega) he) (Nat.succ_ne_zero _)
  -- the rungs have distinct hashes
  have hcard : ((Finset.range (m + 1)).image fun i => hashOf (i + 1)).card = m + 1 := by
    rw [Finset.card_image_of_injOn, Finset.card_range]
    intro i hi j hj he
    rw [Finset.coe_range, Set.mem_Iio] at hi hj
    exact Nat.succ.inj (hashOf_injOn (by omega) (by omega) he)
  exact hcard.ge.trans (Finset.card_le_card hsub)

/-- The block beside a long ladder is admitted, and concurrent with more than `k` blues. -/
theorem Merged.wraps (hlong : 65535 ≤ m) :
    ∃ data, D.data.lookup (hashOf (aside + 1)) = some data ∧
      ¬ D.ColouredExactly (hashOf (aside + 1)) data := by
  have hpos : 0 < m := by omega
  obtain ⟨data, hdata⟩ :=
    Maps.mem_iff_exists_lookup.mp (h.valid.data_mem.mpr (Maps.mem_of_lookup h.stored))
  refine ⟨data, hdata, fun hexact => ?_⟩
  have hk : D.k.toNat = 65535 := congrArg UInt16.toNat h.k_eq
  have hselect := h.selectParent_eq hm hpos
  obtain ⟨hsel, hmergeset⟩ := h.mergeset hm hpos hdata
  -- exact counters would fit, for the one candidate that there is
  have hfit := (h.valid.colouredExactly_iff h.stored h.ne_genesis hdata).mp hexact
  have hordered := (h.valid.coloured h.stored h.ne_genesis hdata).2.1
  rw [hsel, hmergeset] at hordered
  have hall := hfit hk _ (hselect ▸ hordered)
  rw [hselect] at hall
  have hown := (hall.1 (h.admits hm hpos)).1
  have hcard := h.le_card_anticone hm hpos
  unfold Own at hown
  omega

end Merged

omit hm in
theorem addBlocks_wrapping : (new root 65535 10).addBlocks (wrapping m)
    = ((forked.addBlocks (rungs 0 m)).addBlock (merging m)).1 := by
  unfold wrapping forked
  rw [addBlocks_append, addBlocks_append]
  rfl

end Wrap

/-- **A counter that wraps.** With the largest `k`, a block that is concurrent with 65536 blues is
coloured blue. -/
theorem counter_wraps : ∃ b header data,
    ((new root 65535 10).addBlocks (wrapping 65535)).headers.lookup b = some header ∧
      b ≠ root.hash ∧
      ((new root 65535 10).addBlocks (wrapping 65535)).data.lookup b = some data ∧
      ¬ ((new root 65535 10).addBlocks (wrapping 65535)).ColouredExactly b data := by
  have haside : aside = 100000 := rfl
  have hm : 65535 < aside - 2 := by omega
  have hmerged := merged_addBlock hm (by omega)
  rw [← addBlocks_wrapping] at hmerged
  obtain ⟨data, hdata, hnot⟩ := hmerged.wraps hm le_rfl
  refine ⟨hashOf (aside + 1), _, data, hmerged.stored, fun he => ?_, hdata, hnot⟩
  have := hashOf_injOn (i := aside + 1) (j := 0) (by omega) (by omega) he
  omega

end Chainname.DagStore
