import Chainname.Ghostdag.BluePast

/-!
# What the colouring counts

A candidate of the merge set is coloured blue when the blues that are not behind it are few and
each of them has room for one more. The code reads them from two places, the blues of the block
and those of the chain, and cuts either loop short as soon as the answer is known. `Counts` says
what a loop over a list of blues with their counters returns, whatever the place, so both loops
and their sequence are one count (`Valid.colourCandidate_cases`).

The walk down the chain stops at the first chain block behind the candidate. It loses nothing, as
the blues it has not seen are behind that block (`Valid.walkChain_iff`).
-/

namespace Chainname.DagStore

open Memo

/-! ### A counter and a list of blues -/

/-- A count that the comparison with `k` lets pass: all of them, when `k` is the largest value. -/
def Passes (k : UInt16) (n : ℕ) : Prop := k.toNat < 65535 → n ≤ k.toNat

theorem Passes.le {k : UInt16} {m n : ℕ} (h : Passes k n) (hle : m ≤ n) : Passes k m :=
  fun hk => hle.trans (h hk)

/-- The test of the counter, on the wrapped count. -/
theorem lt_ofNat_succ_iff {k : UInt16} {n : ℕ} (hn : Passes k n) :
    k < UInt16.ofNat n + 1 ↔ ¬ Passes k (n + 1) := by
  unfold Passes at *
  have hlt := k.toNat_lt
  rw [UInt16.lt_iff_toNat_lt, UInt16.toNat_add, UInt16.toNat_ofNat', UInt16.toNat_one]
  omega

/-- The blues of a list with the counters kept for them. -/
def noted (sizes : Map BlockHash UInt16) (blues : List BlockHash) : List (BlockHash × UInt16) :=
  blues.map fun blue => (blue, (sizes.lookup blue).getD 0)

open Classical in
/-- The entries of a list whose blocks are not behind a candidate. -/
noncomputable def outside (D : DagStore) (candidate : BlockHash)
    (l : List (BlockHash × UInt16)) : List (BlockHash × UInt16) :=
  l.filter fun e => ¬ D.Anc e.1 candidate

/-- The counters of a list, one higher. -/
def raised (l : List (BlockHash × UInt16)) : List (BlockHash × UInt16) :=
  l.map fun e => (e.1, e.2 + 1)

/-- What a loop that counts the entries of `l` on top of `n` returns, if it does not refuse. -/
structure Counts (k : UInt16) (l : List (BlockHash × UInt16)) (n : ℕ)
    (updates : List (BlockHash × UInt16)) (r : UInt16 × List (BlockHash × UInt16)) : Prop where
  passes : Passes k (n + l.length)
  room : ∀ e ∈ l, e.2 < k
  eq : r = (UInt16.ofNat (n + l.length), updates ++ raised l)

section Counts

variable {k : UInt16} {n : ℕ} {updates : List (BlockHash × UInt16)}
  {r : UInt16 × List (BlockHash × UInt16)}

theorem counts_nil (hn : Passes k n) : Counts k [] n updates r ↔ r = (UInt16.ofNat n, updates) := by
  refine ⟨fun h => ?_, fun h => ⟨hn, fun e he => absurd he List.not_mem_nil, ?_⟩⟩
  · rw [h.eq]
    simp [raised]
  · rw [h]
    simp [raised]

theorem counts_cons {e : BlockHash × UInt16} {l : List (BlockHash × UInt16)} :
    Counts k (e :: l) n updates r ↔
      Passes k (n + 1) ∧ e.2 < k ∧ Counts k l (n + 1) (updates ++ [(e.1, e.2 + 1)]) r := by
  have hlen : n + (e :: l).length = n + 1 + l.length := by
    rw [List.length_cons]
    omega
  have hraised : updates ++ raised (e :: l) = updates ++ [(e.1, e.2 + 1)] ++ raised l := by
    simp [raised]
  refine ⟨?_, ?_⟩
  · -- the test on the whole list implies the one on its first entry
    rintro ⟨hp, hroom, hr⟩
    rw [hlen] at hp hr
    rw [hraised] at hr
    exact ⟨hp.le (Nat.le_add_right _ _), hroom e List.mem_cons_self, hp,
      fun e' he' => hroom e' (List.mem_cons_of_mem _ he'), hr⟩
  · rintro ⟨-, he, hp, hroom, hr⟩
    refine ⟨?_, List.forall_mem_cons.mpr ⟨he, hroom⟩, ?_⟩
    · rw [hlen]
      exact hp
    · rw [hlen, hraised]
      exact hr

/-- Two loops one after the other count what both count. -/
theorem counts_append {l l' : List (BlockHash × UInt16)} :
    Counts k (l ++ l') n updates r ↔
      ∃ r', Counts k l n updates r' ∧ Counts k l' (n + l.length) r'.2 r := by
  refine ⟨?_, ?_⟩
  · rintro ⟨hp, hroom, hr⟩
    rw [List.length_append, ← Nat.add_assoc] at hp hr
    refine ⟨_, ⟨hp.le (Nat.le_add_right _ _), fun e he => hroom e (List.mem_append_left _ he), rfl⟩,
      hp, fun e he => hroom e (List.mem_append_right _ he), ?_⟩
    rw [hr]
    simp [raised]
  · rintro ⟨r', ⟨-, hroom, rfl⟩, hp, hroom', hr⟩
    refine ⟨?_, fun e he => (List.mem_append.mp he).elim (hroom e) (hroom' e), ?_⟩
    · rw [List.length_append, ← Nat.add_assoc]
      exact hp
    · rw [hr, List.length_append, ← Nat.add_assoc]
      simp [raised]

end Counts

/-! ### The loops of the rule -/

section Rule

variable {D : DagStore} {candidate : BlockHash}

variable (D candidate) in
/-- A block that is not behind the candidate is kept, one that is is dropped. -/
theorem outside_cons (e : BlockHash × UInt16) (l : List (BlockHash × UInt16)) :
    (D.Anc e.1 candidate → D.outside candidate (e :: l) = D.outside candidate l) ∧
      (¬ D.Anc e.1 candidate → D.outside candidate (e :: l) = e :: D.outside candidate l) := by
  refine ⟨?_, ?_⟩
  · intro h
    exact List.filter_cons_of_neg (by simpa using h)
  · intro h
    exact List.filter_cons_of_pos (by simpa using h)

theorem outside_append (l l' : List (BlockHash × UInt16)) :
    D.outside candidate (l ++ l') = D.outside candidate l ++ D.outside candidate l' :=
  List.filter_append _ _

theorem mem_outside {e : BlockHash × UInt16} {l : List (BlockHash × UInt16)} :
    e ∈ D.outside candidate l ↔ e ∈ l ∧ ¬ D.Anc e.1 candidate := by
  simp [outside]

variable (D candidate) in
/-- **The loop over a list of blues** counts those that are not behind the candidate. -/
theorem scanBlues_iff (k : UInt16) (sizes : Map BlockHash UInt16) (blues : List BlockHash) {n : ℕ}
    (hn : Passes k n) (updates : List (BlockHash × UInt16))
    (r : UInt16 × List (BlockHash × UInt16)) :
    scanBlues (m := Id) D.truth k sizes candidate blues (UInt16.ofNat n) updates = some r ↔
      Counts k (D.outside candidate (noted sizes blues)) n updates r := by
  -- the scan of the blues, the count so far in `n`
  induction blues generalizing n updates with
  | nil =>
    rw [show noted sizes [] = [] from rfl, show D.outside candidate [] = [] from rfl, counts_nil hn]
    exact ⟨fun h => (Option.some.inj h).symm, fun h => congrArg some h.symm⟩
  | cons blue blues ih =>
    have hcons : noted sizes (blue :: blues)
        = (blue, (sizes.lookup blue).getD 0) :: noted sizes blues := rfl
    obtain ⟨hin, hout⟩ := outside_cons D candidate
      (blue, (sizes.lookup blue).getD 0) (noted sizes blues)
    unfold scanBlues
    rw [id_bind, hcons]
    -- a blue behind the candidate is passed over
    by_cases hanc : D.Anc blue candidate
    · rw [if_pos (truth_iff.mpr hanc), ih hn, hin hanc]
    · -- a blue in its anticone: the two tests of the source, in its order
      have htest : k < UInt16.ofNat n + 1 ↔ ¬ Passes k (n + 1) := lt_ofNat_succ_iff hn
      rw [if_neg fun h => hanc (truth_iff.mp h), hout hanc, counts_cons]
      by_cases hp : Passes k (n + 1)
      · rw [if_neg fun h => htest.mp h hp]
        dsimp only
        by_cases hroom : k ≤ (sizes.lookup blue).getD 0
        · rw [if_pos hroom]
          refine ⟨fun h => absurd h (by simp [pure]), fun h => ?_⟩
          exact absurd h.2.1 (UInt16.not_lt.mpr hroom)
        · have hsucc : UInt16.ofNat n + 1 = UInt16.ofNat (n + 1) := by
            rw [UInt16.ofNat_add]
            rfl
          rw [if_neg hroom, hsucc, ih hp]
          exact ⟨fun h => ⟨hp, UInt16.not_le.mp hroom, h⟩, fun h => h.2.2⟩
      · rw [if_pos (htest.mpr hp)]
        exact ⟨fun h => absurd h (by simp [pure]), fun h => absurd h.1 hp⟩

theorem map_fst_noted (sizes : Map BlockHash UInt16) (blues : List BlockHash) :
    (noted sizes blues).map Prod.fst = blues := by
  unfold noted
  rw [List.map_map]
  exact List.map_id _

theorem mem_noted {sizes : Map BlockHash UInt16} {blues : List BlockHash} {e : BlockHash × UInt16} :
    e ∈ noted sizes blues ↔ e.1 ∈ blues ∧ e.2 = (sizes.lookup e.1).getD 0 := by
  obtain ⟨b, size⟩ := e
  unfold noted
  rw [List.mem_map]
  refine ⟨?_, ?_⟩
  · rintro ⟨x, hx, he⟩
    obtain ⟨rfl, rfl⟩ := Prod.mk.inj he
    exact ⟨hx, rfl⟩
  · rintro ⟨hx, hsize⟩
    exact ⟨b, hx, Prod.ext rfl hsize.symm⟩

variable (D) in
/-- The blues of a chain block with the counters stored at it. -/
def notedAt (b : BlockHash) : List (BlockHash × UInt16) :=
  (D.data.lookup b).elim [] fun data => noted data.bluesAnticoneSizes data.mergesetBlues

variable (D) in
/-- The blue past of a block with the counters the chain recorded. -/
def chainNoted (b : BlockHash) : List (BlockHash × UInt16) :=
  (D.selectedParentChain b).flatMap D.notedAt

theorem map_fst_notedAt (b : BlockHash) : (D.notedAt b).map Prod.fst = D.bluesOf b := by
  unfold notedAt bluesOf
  cases D.data.lookup b with
  | none => rfl
  | some data => exact map_fst_noted _ _

theorem map_fst_chainNoted (b : BlockHash) :
    (D.chainNoted b).map Prod.fst = (D.selectedParentChain b).flatMap D.bluesOf := by
  unfold chainNoted
  rw [List.map_flatMap]
  exact List.flatMap_congr fun c _ => map_fst_notedAt c

theorem mem_map_fst_chainNoted {b x : BlockHash} :
    x ∈ (D.chainNoted b).map Prod.fst ↔ x ∈ D.bluePast b := by
  rw [map_fst_chainNoted, List.mem_flatMap, mem_bluePast]

variable [HeaderHash] (hD : D.Valid)

include hD

theorem Valid.nodup_chainNoted {b : BlockHash} (hb : b ∈ D.headers) :
    ((D.chainNoted b).map Prod.fst).Nodup := by
  rw [map_fst_chainNoted, List.nodup_flatMap]
  exact ⟨fun c _ => hD.nodup_bluesOf c, hD.pairwise_disjoint_blues hb⟩

/-- What the chain recorded of a block is what it recorded of the selected parent, after the block's
own. -/
theorem Valid.chainNoted_eq {b : BlockHash} {data : GhostdagData}
    (hdata : D.data.lookup b = some data) (hne : b ≠ D.genesis) :
    D.chainNoted b = noted data.bluesAnticoneSizes data.mergesetBlues
      ++ D.chainNoted data.selectedParent := by
  have hat : D.notedAt b = noted data.bluesAnticoneSizes data.mergesetBlues := by
    unfold notedAt
    rw [hdata]
    rfl
  unfold chainNoted
  rw [hD.selectedParentChain_cons hdata hne, List.flatMap_cons, hat]

theorem Valid.chainNoted_genesis : D.chainNoted D.genesis = [] := by
  have hnone : (D.chainNoted D.genesis).map Prod.fst = [] := by
    rw [map_fst_chainNoted, selectedParentChain_genesis]
    simp [hD.bluesOf_genesis]
  exact List.map_eq_nil_iff.mp hnone

variable (candidate) in
/-- **The walk down the chain** counts the blues of the chain that are not behind the candidate. It
may stop at a chain block behind the candidate, as the blues it has not seen are behind that. -/
theorem Valid.walkChain_iff (fuel : ℕ) {b : BlockHash} (hb : b ∈ D.headers)
    (hfuel : D.topologicalHeight b < fuel) {n : ℕ} (hn : Passes D.k n)
    (updates : List (BlockHash × UInt16)) (r : UInt16 × List (BlockHash × UInt16)) :
    D.walkChain (m := Id) D.truth candidate fuel b (UInt16.ofNat n) updates = some r ↔
      Counts D.k (D.outside candidate (D.chainNoted b)) n updates r := by
  induction fuel generalizing b n updates with
  | zero => exact absurd hfuel (Nat.not_lt_zero _)
  | succ fuel ih =>
    unfold walkChain
    rw [id_bind]
    by_cases hanc : D.Anc b candidate
    · -- the walk stops: all that is left lies behind this chain block
      have hnone : D.outside candidate (D.chainNoted b) = [] := by
        refine List.eq_nil_iff_forall_not_mem.mpr fun e he => ?_
        obtain ⟨he, hout⟩ := mem_outside.mp he
        have hmem := mem_map_fst_chainNoted.mp (List.mem_map_of_mem he)
        exact hout ((hD.anc_of_mem_bluePast hb hmem).1.trans hanc)
      rw [if_pos (truth_iff.mpr hanc), hnone, counts_nil hn]
      exact ⟨fun h => (Option.some.inj h).symm, fun h => congrArg some h.symm⟩
    · rw [if_neg fun h => hanc (truth_iff.mp h)]
      obtain ⟨data, hdata⟩ := Maps.mem_iff_exists_lookup.mp (hD.data_mem.mpr hb)
      rw [hdata]
      dsimp only
      rw [id_bind]
      have hscan := scanBlues_iff D candidate D.k data.bluesAnticoneSizes
        data.mergesetBlues hn updates
      by_cases hg : b = D.genesis
      · -- genesis has no blues, so the last scan counts nothing
        subst hg
        obtain ⟨genesis, -, hgen⟩ := hD.genesis_stored
        obtain rfl := Option.some.inj (hdata.symm.trans hgen)
        rw [hD.chainNoted_genesis, show D.outside candidate [] = [] from rfl, counts_nil hn,
          (hscan (UInt16.ofNat n, updates)).mpr ((counts_nil hn).mpr rfl)]
        dsimp only
        rw [if_pos rfl]
        exact ⟨fun h => (Option.some.inj h).symm, fun h => congrArg some h.symm⟩
      · rw [hD.chainNoted_eq hdata hg, outside_append, counts_append]
        -- the fuel covers the height, and the selected parent is lower
        have hlower : D.topologicalHeight data.selectedParent < fuel :=
          Nat.lt_of_lt_of_le (hD.layered.height_lt (hD.selected_edge hdata hg))
            (Nat.le_of_lt_succ hfuel)
        cases hs : scanBlues (m := Id) D.truth D.k data.bluesAnticoneSizes candidate
            data.mergesetBlues (UInt16.ofNat n) updates with
        | none =>
          refine ⟨fun h => absurd h (by simp [pure]), ?_⟩
          rintro ⟨r', hr', -⟩
          exact absurd (hs.symm.trans ((hscan r').mpr hr')) (by simp)
        | some r' =>
          obtain ⟨anticone, updates'⟩ := r'
          have hcounts := (hscan _).mp hs
          obtain ⟨rfl, rfl⟩ := Prod.mk.inj hcounts.eq
          dsimp only
          rw [if_neg hg, ih (hD.selected_mem hdata) hlower hcounts.passes]
          refine ⟨fun h => ⟨_, hcounts, h⟩, ?_⟩
          rintro ⟨r', hr', h⟩
          obtain rfl := hr'.eq
          exact h

omit [HeaderHash] hD in
/-- The blues not behind a candidate, and the counters the rule reads for them: those of the block
itself, then those of the chain. -/
noncomputable def apart (D : DagStore) (selectedParent candidate : BlockHash)
    (blues : List BlockHash) (sizes : Map BlockHash UInt16) : List (BlockHash × UInt16) :=
  D.outside candidate (noted sizes blues ++ D.chainNoted selectedParent)

variable (candidate) in
/-- **The rule**: a candidate is blue when there is room for it, with its counter and those it
raises, and red otherwise. -/
theorem Valid.colourCandidate_cases {selectedParent : BlockHash} (hs : selectedParent ∈ D.headers)
    (blues : List BlockHash) (sizes : Map BlockHash UInt16) :
    (∃ r, blues.length ≤ D.k.toNat ∧
        Counts D.k (D.apart selectedParent candidate blues sizes) 0 [] r ∧
        D.colourCandidate (m := Id) D.truth candidate selectedParent blues sizes = (.blue, r)) ∨
      (¬ ∃ r, blues.length ≤ D.k.toNat ∧
        Counts D.k (D.apart selectedParent candidate blues sizes) 0 [] r) ∧
        D.colourCandidate (m := Id) D.truth candidate selectedParent blues sizes
          = (.red, 0, []) := by
  have hscan := scanBlues_iff D candidate D.k sizes blues
    (show Passes D.k 0 from fun _ => Nat.zero_le _) []
  -- both loops together are one count
  have hapart : ∀ r, Counts D.k (D.apart selectedParent candidate blues sizes) 0 [] r ↔
      ∃ r', Counts D.k (D.outside candidate (noted sizes blues)) 0 [] r' ∧
        Counts D.k (D.outside candidate (D.chainNoted selectedParent))
          (0 + (D.outside candidate (noted sizes blues)).length) r'.2 r := by
    intro r
    unfold apart
    rw [outside_append, counts_append]
  unfold colourCandidate
  by_cases hlen : D.k.toNat < blues.length
  · rw [if_pos hlen]
    exact .inr ⟨fun ⟨_, hle, _⟩ => absurd hle (not_le.mpr hlen), rfl⟩
  rw [if_neg hlen, id_bind]
  cases hs₁ : scanBlues (m := Id) D.truth D.k sizes candidate blues 0 [] with
  | none =>
    refine .inr ⟨fun ⟨r, _, hr⟩ => ?_, rfl⟩
    obtain ⟨r', hr', -⟩ := (hapart r).mp hr
    exact absurd (hs₁.symm.trans ((hscan r').mpr hr')) (by simp)
  | some r' =>
    obtain ⟨anticone, updates⟩ := r'
    have hcounts := (hscan _).mp hs₁
    have hwalk := hD.walkChain_iff candidate
      (D.topologicalHeight selectedParent + 1) hs (Nat.lt_succ_self _) hcounts.passes updates
    rw [← (Prod.mk.inj hcounts.eq).1] at hwalk
    dsimp only
    rw [id_bind]
    cases hw : D.walkChain (m := Id) D.truth candidate (D.topologicalHeight selectedParent + 1)
        selectedParent anticone updates with
    | none =>
      refine .inr ⟨fun ⟨r, _, hr⟩ => ?_, rfl⟩
      obtain ⟨r', hr', hr⟩ := (hapart r).mp hr
      obtain rfl := hr'.eq.trans hcounts.eq.symm
      exact absurd (hw.symm.trans ((hwalk r).mpr hr)) (by simp)
    | some r =>
      exact .inl ⟨r, not_lt.mp hlen, (hapart r).mpr ⟨_, hcounts, (hwalk r).mp hw⟩, rfl⟩

end Rule

end Chainname.DagStore
