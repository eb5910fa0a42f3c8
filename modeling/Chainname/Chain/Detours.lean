import Chainname.Chain.Undisturbed

/-!
# Detours

What validation cannot see of a round, some EVM acts on. An EVM that behaves alike before the
round (`Alike`) gives the same speculations, so it gives `validate` the same to judge. One
that behaves like `E` as long as what `E` reads before the round is as it was, and else goes
its own way (`detour`), is such an EVM, and a disturbed transaction takes the detour:

* `exists_detour`: the turn of the first disturbed transaction comes out otherwise than its
  speculation;
* `exists_repair`: a transaction that was not executable is executed, if it reads anything and
  a pair before it is disturbed. The disturbed transaction leaves a mark at an account that the
  failing one reads, and the mark is still there when its turn comes.
-/

namespace Chainname

/-! ### What a disturbance does -/

/-- Paying something to an account that is not full raises its balance. -/
theorem foldl_creditAt_ne {credits : List (Address × B256)} {credit : Address × B256}
    {account : Option AccountState} (hm : credit ∈ credits) (hpays : credit.2 ≠ 0)
    (hfull : (infoOf account).balance.val < U256.max) :
    credits.foldl (creditAt credit.1) account ≠ account := by
  -- the paying credit splits the list; before and after it the balance can only grow
  obtain ⟨l₁, l₂, rfl⟩ := List.append_of_mem hm
  intro heq
  have h₁ := balance_le_foldl_creditAt l₁ credit.1 account
  have h₂ := balance_le_foldl_creditAt l₂ credit.1
    (creditAt credit.1 (l₁.foldl (creditAt credit.1) account) credit)
  rw [List.foldl_append, List.foldl_cons] at heq
  rw [heq, creditAt_self hpays] at h₂
  -- read in numbers: the balance after the payment is at most the one before it
  have h₃ : min ((infoOf (l₁.foldl (creditAt credit.1) account)).balance.val + credit.2.val)
      U256.max ≤ (infoOf account).balance.val := h₂
  have h₄ : (infoOf account).balance.val
      ≤ (infoOf (l₁.foldl (creditAt credit.1) account)).balance.val := h₁
  have h₅ : credit.2.val ≠ 0 := fun h => hpays (Fin.ext h)
  omega

/-- Two transactions of a round, by their order. -/
theorem pair_of_mem {R : Address × ChainTx → Address × ChainTx → Prop}
    {round : List (Address × ChainTx)} {item other : Address × ChainTx} (h : round.Pairwise R)
    (hm : item ∈ round) (ho : other ∈ round) : other = item ∨ R other item ∨ R item other := by
  obtain ⟨before, after, rfl⟩ := List.append_of_mem hm
  rw [List.pairwise_append, List.pairwise_cons] at h
  rw [List.mem_append, List.mem_cons] at ho
  obtain ho | rfl | ho := ho
  · exact Or.inr (Or.inl (h.2.2 other ho item List.mem_cons_self))
  · exact Or.inl rfl
  · exact Or.inr (Or.inr (h.2.1.1 other ho))

section Disturbance

variable [LocalEvm] {params : ChainParams} {ctx : ChainBlockCtx}

/-- No beneficiary of the round holds all the wei a balance can hold. -/
def NoneFull (s : WorldState) (round : List (Address × ChainTx)) : Prop :=
  ∀ item ∈ round, (infoOf (s.account item.1)).balance.val < U256.max

/-- A fee to an account that nobody in the prefix writes shows. -/
theorem fee_shows {s : WorldState} {round : List (Address × ChainTx)}
    {item : Address × ChainTx} (hagrees : Agrees params ctx s round) (hm : item ∈ round)
    (hfee : (speculation params ctx s item).feeCredit ≠ 0)
    (hres : (speculation params ctx s item).result ≠ none)
    (hfull : (infoOf (s.account item.1)).balance.val < U256.max)
    (hwrites : ∀ other ∈ round, item.1 ∉ (speculation params ctx s other).writes) :
    (runRound params ctx s round).1.account item.1 ≠ s.account item.1 := by
  rw [hagrees.account, account_commitItems hwrites]
  have hcredit : (item.1, (speculation params ctx s item).feeCredit)
      ∈ (commitItems params ctx s round).2 := mem_credits.mpr ⟨item, hm, hres, rfl⟩
  exact foldl_creditAt_ne hcredit hfee hfull

/-- What a transaction writes, its run has read; its beneficiary is not among it. -/
theorem of_mem_writes {s : WorldState} {item : Address × ChainTx} {a : Address}
    (huntouched : (speculation params ctx s item).touchedBeneficiary = false)
    (h : a ∈ (speculation params ctx s item).writes) :
    (speculation params ctx s item).result ≠ none ∧ a ∈ readsOf params ctx s item ∧
      a ≠ item.1 := by
  rw [writes_eq, Finmap.mem_keys] at h
  -- a failed transaction writes nothing
  cases hs : LocalEvm.run params ctx item.1 item.2 s with
  | none =>
    rw [speculation_none hs] at h
    exact absurd h Finmap.notMem_empty
  | some out =>
    obtain ⟨result, changes⟩ := out
    have hspec := speculation_some hs huntouched
    -- the pure fee entry was taken out of the diff
    have hne : a ≠ item.1 := by
      rintro rfl
      exact Finmap.lookup_eq_none.mp hspec.lookup_self h
    refine ⟨by rw [hspec.result_eq]; exact Option.some_ne_none _, ?_, hne⟩
    refine LocalEvm.mem_reads hs a ?_
    rw [← Finmap.lookup_isSome, ← hspec.lookup_of_ne a hne, Finmap.lookup_isSome]
    exact h

/-- The beneficiary of an executable transaction is among the accounts it loads. -/
theorem beneficiary_mem_reads {s : WorldState} {item : Address × ChainTx}
    (huntouched : (speculation params ctx s item).touchedBeneficiary = false)
    (h : (speculation params ctx s item).result ≠ none) :
    item.1 ∈ (speculation params ctx s item).reads := by
  cases hs : LocalEvm.run params ctx item.1 item.2 s with
  | none =>
    rw [speculation_none hs] at h
    exact absurd rfl h
  | some out =>
    rw [(speculation_some hs huntouched).reads_eq]
    exact Finset.mem_insert_self _ _

/-- An executable later transaction of an undisturbed pair does not read the beneficiary that
the earlier one pays. -/
theorem Undisturbed.unread {s : WorldState} {earlier later : Address × ChainTx}
    (h : Undisturbed params ctx s earlier later)
    (hres : (speculation params ctx s later).result ≠ none)
    (hfee : (speculation params ctx s earlier).feeCredit ≠ 0) :
    earlier.1 ∉ readsOf params ctx s later := by
  rw [Undisturbed, if_neg hres] at h
  exact h hfee

/-- A transaction that is skipped changes nothing on its own. -/
theorem account_alone_of_skipped {s : WorldState} {item : Address × ChainTx}
    (hsingle : Agrees params ctx s [item]) (hnone : (speculation params ctx s item).result = none)
    (a : Address) : (alone params ctx s item).account a = s.account a := by
  have hempty : commitItems params ctx s [item] = (s, []) := by
    unfold commitItems commitSpeculation
    rw [List.foldl_cons, hnone]
    rfl
  have hround : alone params ctx s item = (runRound params ctx s [item]).1 := rfl
  rw [hround, hsingle.account, hempty]
  rfl

/-- A transaction that is not skipped commits what it writes and pays its beneficiary. -/
theorem account_alone {s : WorldState} {item : Address × ChainTx}
    (hsingle : Agrees params ctx s [item]) (hres : (speculation params ctx s item).result ≠ none)
    (a : Address) : (alone params ctx s item).account a
      = creditAt a ((s.commit (speculation params ctx s item).diff).account a)
          (item.1, (speculation params ctx s item).feeCredit) := by
  -- a round of one commits that one's diff and owes that one's fee
  have hcommit : commitItems params ctx s [item] = (s.commit (speculation params ctx s item).diff,
      [(item.1, (speculation params ctx s item).feeCredit)]) := by
    obtain ⟨result, hresult⟩ := Option.ne_none_iff_exists'.mp hres
    unfold commitItems commitSpeculation
    rw [List.foldl_cons, hresult]
    rfl
  have hround : alone params ctx s item = (runRound params ctx s [item]).1 := rfl
  rw [hround, hsingle.account, hcommit]
  rfl

section Shows

variable {s : WorldState} {round : List (Address × ChainTx)} {item : Address × ChainTx}
  {a : Address}

/-- Where a transaction of an accepted round writes, no other one does. -/
theorem account_commitItems_of_mem_writes (hacc : Accepted params ctx s round) (hm : item ∈ round)
    (hwrites : a ∈ (speculation params ctx s item).writes) :
    (commitItems params ctx s round).1.account a
      = (s.commit (speculation params ctx s item).diff).account a := by
  -- independence: of the transactions of the round only `item` writes at `a`
  obtain ⟨before, after, hsplit⟩ := List.append_of_mem hm
  have hind := hacc.independent
  rw [hsplit, List.pairwise_append, List.pairwise_cons] at hind
  obtain ⟨-, ⟨hindAfter, -⟩, hindBefore⟩ := hind
  have hnoBefore : ∀ other ∈ before, a ∉ (speculation params ctx s other).writes :=
    fun other ho hw => Finset.disjoint_left.mp
      (hindBefore other ho item List.mem_cons_self).writes hw hwrites
  have hnoAfter : ∀ other ∈ after, a ∉ (speculation params ctx s other).writes :=
    fun other ho hw => Finset.disjoint_left.mp (hindAfter other ho).writes hwrites hw
  obtain ⟨hres, -, -⟩ := of_mem_writes (hacc.untouched item hm) hwrites
  obtain ⟨result, hresult⟩ := Option.ne_none_iff_exists'.mp hres
  rw [hsplit, List.append_cons, account_commitItems_append hnoAfter, commitItems_append_singleton]
  unfold commitSpeculation
  dsimp only
  rw [hresult]
  show ((commitItems params ctx s before).1.commit _).account a = _
  rw [account_commit, account_commit, account_commitItems hnoBefore]

/-- Nothing is paid there either: a beneficiary is loaded by its own transaction, and is not read
by the later ones once it has been paid. -/
theorem credit_eq_zero_of_mem_writes (hacc : Accepted params ctx s round)
    (hund : round.Pairwise (Undisturbed params ctx s)) (hm : item ∈ round)
    (hwrites : a ∈ (speculation params ctx s item).writes) :
    ∀ credit ∈ (commitItems params ctx s round).2, credit.1 = a → credit.2 = 0 := by
  obtain ⟨hres, hread, hne⟩ := of_mem_writes (hacc.untouched item hm) hwrites
  intro credit hcredit heq
  obtain ⟨other, hother, hresOther, rfl⟩ := mem_credits.mp hcredit
  by_contra hfee
  dsimp only at heq hfee
  subst heq
  -- the payer is `item` itself, stands before it, or after it
  obtain rfl | ⟨-, hund⟩ | ⟨hind, -⟩ := pair_of_mem (hacc.independent.and hund) hm hother
  · exact hne rfl
  · exact hund.unread hres hfee hread
  · exact Finset.disjoint_left.mp hind.reads hwrites
      (beneficiary_mem_reads (hacc.untouched other hother) hresOther)

/-- Nobody writes to a beneficiary that is paid, if its transaction does not. -/
theorem beneficiary_notMem_writes (hacc : Accepted params ctx s round)
    (hund : round.Pairwise (Undisturbed params ctx s)) (hm : item ∈ round)
    (hres : (speculation params ctx s item).result ≠ none)
    (hfee : (speculation params ctx s item).feeCredit ≠ 0)
    (hwrites : item.1 ∉ (speculation params ctx s item).writes) :
    ∀ other ∈ round, item.1 ∉ (speculation params ctx s other).writes := by
  intro other hother hw
  obtain rfl | ⟨hind, -⟩ | ⟨-, hund⟩ := pair_of_mem (hacc.independent.and hund) hm hother
  · exact hwrites hw
  · exact Finset.disjoint_left.mp hind.reads hw
      (beneficiary_mem_reads (hacc.untouched item hm) hres)
  · obtain ⟨hresOther, hread, -⟩ := of_mem_writes (hacc.untouched other hother) hw
    exact hund.unread hresOther hfee hread

/-- **A change shows.** What a transaction of an accepted, undisturbed round changes alone
is changed after the round. -/
theorem change_shows (hacc : Accepted params ctx s round)
    (hund : round.Pairwise (Undisturbed params ctx s)) (hfull : NoneFull s round)
    (hm : item ∈ round) (ha : (alone params ctx s item).account a ≠ s.account a) :
    (runRound params ctx s round).1.account a ≠ s.account a := by
  have hagrees := agrees_of_undisturbed hacc hund
  have hsingle : Agrees params ctx s [item] :=
    agrees_of_undisturbed (hacc.sublist (List.singleton_sublist.mpr hm)) (List.pairwise_singleton _ _)
  have hres : (speculation params ctx s item).result ≠ none :=
    fun hnone => ha (account_alone_of_skipped hsingle hnone a)
  rw [account_alone hsingle hres] at ha
  by_cases hwrites : a ∈ (speculation params ctx s item).writes
  · -- a write: nobody else writes there, and nobody is paid there
    obtain ⟨-, -, hne⟩ := of_mem_writes (hacc.untouched item hm) hwrites
    rw [hagrees.account, account_commitItems_of_mem_writes hacc hm hwrites,
      foldl_creditAt_eq (credit_eq_zero_of_mem_writes hacc hund hm hwrites)]
    rw [creditAt_of_ne (Ne.symm hne)] at ha
    exact ha
  · -- no write, so it is the fee that changes `a`, and nobody writes there
    have hlookup : (speculation params ctx s item).diff.lookup a = none := by
      rw [Finmap.lookup_eq_none, ← Finmap.mem_keys, ← writes_eq]
      exact hwrites
    rw [account_commit, hlookup] at ha
    have hpaid : item.1 = a := by
      by_contra hne
      exact ha (creditAt_of_ne hne _)
    have hfee : (speculation params ctx s item).feeCredit ≠ 0 := fun hzero =>
      ha (creditAt_zero hzero _)
    subst hpaid
    exact fee_shows hagrees hm hfee hres (hfull item hm)
      (beneficiary_notMem_writes hacc hund hm hres hfee hwrites)

end Shows

/-- **A disturbed transaction reads something else.** The first transaction of an accepted
round that some earlier one disturbs finds an account that it reads changed. -/
theorem disturbed_reads {s : WorldState} {round : List (Address × ChainTx)}
    {earlier item : Address × ChainTx} (hacc : Accepted params ctx s (round ++ [item]))
    (hund : round.Pairwise (Undisturbed params ctx s)) (hfull : NoneFull s round)
    (hm : earlier ∈ round) (hdist : ¬ Undisturbed params ctx s earlier item) :
    ∃ a ∈ readsOf params ctx s item,
      (runRound params ctx s round).1.account a ≠ s.account a := by
  have hround := hacc.sublist (List.sublist_append_left round [item])
  by_cases hres : (speculation params ctx s item).result = none
  · rw [Undisturbed, if_pos hres] at hdist
    push Not at hdist
    obtain ⟨a, ha, hchange⟩ := hdist
    exact ⟨a, ha, change_shows hround hund hfull hm hchange⟩
  · rw [Undisturbed, if_neg hres, FeeUnread] at hdist
    push Not at hdist
    obtain ⟨hfee, hread⟩ := hdist
    refine ⟨earlier.1, hread, ?_⟩
    -- the beneficiary is loaded by `item`, so nobody in the round writes it
    have huntouched := hacc.untouched item (List.mem_append_right _ List.mem_cons_self)
    have hload : earlier.1 ∈ (speculation params ctx s item).reads := by
      cases hs : LocalEvm.run params ctx item.1 item.2 s with
      | none =>
        rw [speculation_none hs] at hres
        exact absurd rfl hres
      | some out =>
        rw [(speculation_some hs huntouched).reads_eq]
        exact Finset.mem_insert_of_mem hread
    have hearlier : (speculation params ctx s earlier).result ≠ none := by
      intro hnone
      cases hs : LocalEvm.run params ctx earlier.1 earlier.2 s with
      | none =>
        rw [speculation_none hs] at hfee
        exact hfee rfl
      | some out =>
        rw [(speculation_some hs (hround.untouched earlier hm)).result_eq] at hnone
        exact Option.some_ne_none _ hnone
    exact fee_shows (agrees_of_undisturbed hround hund) hm hfee hearlier (hfull earlier hm)
      (hacc.last params ctx hload)

end Disturbance

/-! ### EVMs that validation cannot tell apart -/

/-- Two EVMs that behave alike on the transactions of a round before it starts. -/
structure Alike (E E' : LocalEvm) (params : ChainParams) (ctx : ChainBlockCtx) (s : WorldState)
    (round : List (Address × ChainTx)) : Prop where
  run_eq : ∀ item ∈ round,
    E'.run params ctx item.1 item.2 s = E.run params ctx item.1 item.2 s
  reads_eq : ∀ item ∈ round,
    E'.reads params ctx item.1 item.2 s = E.reads params ctx item.1 item.2 s
  fee_eq : ∀ item ∈ round, ∀ result,
    E'.fee params ctx item.2 result = E.fee params ctx item.2 result

section Alike

variable {E E' : LocalEvm} {params : ChainParams} {ctx : ChainBlockCtx} {s : WorldState}
  {round : List (Address × ChainTx)}

theorem Alike.transact_eq (h : Alike E E' params ctx s round) {item : Address × ChainTx}
    (hm : item ∈ round) :
    E'.transact params ctx item.1 item.2 s = E.transact params ctx item.1 item.2 s := by
  rw [E'.transact_eq, E.transact_eq, h.run_eq item hm]
  congr 1
  funext out
  rw [h.fee_eq item hm]

theorem Alike.speculation_eq (h : Alike E E' params ctx s round) {item : Address × ChainTx}
    (hm : item ∈ round) :
    @speculation E'.toEvm params ctx s item = @speculation E.toEvm params ctx s item := by
  unfold speculation speculateOne
  rw [h.transact_eq hm]
  -- what is loaded is the beneficiary and what is read, alike for both
  cases hrun : E.run params ctx item.1 item.2 s with
  | none =>
    rw [E.transact_eq, hrun]
    rfl
  | some out =>
    have hne : E.run params ctx item.1 item.2 s ≠ none := by
      rw [hrun]
      exact Option.some_ne_none out
    have hloaded : E'.loaded params ctx item.1 item.2 s = E.loaded params ctx item.1 item.2 s := by
      rw [E.loaded_eq _ _ _ _ _ hne,
        E'.loaded_eq _ _ _ _ _ (by rw [h.run_eq item hm]; exact hne), h.reads_eq item hm]
    rw [hloaded]

theorem Alike.accepted (h : Alike E E' params ctx s round)
    (hacc : @Accepted E.toEvm params ctx s round) : @Accepted E'.toEvm params ctx s round := by
  obtain ⟨huntouched, hindependent⟩ := hacc
  refine ⟨fun item hm => ?_, hindependent.imp_of_mem fun ha hb hind => ?_⟩
  · rw [h.speculation_eq hm]
    exact huntouched item hm
  · rw [h.speculation_eq ha, h.speculation_eq hb]
    exact hind

theorem Alike.undisturbed_iff (h : Alike E E' params ctx s round)
    {earlier later : Address × ChainTx} (he : earlier ∈ round) (hl : later ∈ round) :
    @Undisturbed E' params ctx s earlier later ↔ @Undisturbed E params ctx s earlier later := by
  -- run alone, `earlier` does the same under both
  have halone : @alone E' params ctx s earlier = @alone E params ctx s earlier := by
    have hsame := h.transact_eq he
    unfold alone
    cases hE : E.transact params ctx earlier.1 earlier.2 s with
    | none =>
      rw [@runRound_cons_none E.toEvm _ _ _ _ hE, @runRound_cons_none E'.toEvm _ _ _ _ (hsame.trans hE)]
      rfl
    | some out =>
      rw [@runRound_cons_some E.toEvm _ _ _ _ _ hE,
        @runRound_cons_some E'.toEvm _ _ _ _ _ (hsame.trans hE)]
      rfl
  have hreads : @readsOf E' params ctx s later = @readsOf E params ctx s later :=
    h.reads_eq later hl
  unfold Undisturbed FeeUnread
  rw [h.speculation_eq he, h.speculation_eq hl, halone, hreads]

/-- Under an EVM alike, too, the first disturbed transaction reads something else. -/
theorem Alike.disturbed_reads (h : Alike E E' params ctx s round)
    (hacc : @Accepted E.toEvm params ctx s round) (hfull : NoneFull s round)
    {before : List (Address × ChainTx)} {earlier item : Address × ChainTx}
    (hsub : (before ++ [item]).Sublist round)
    (hund : before.Pairwise (@Undisturbed E params ctx s)) (hearlier : earlier ∈ before)
    (hdist : ¬ @Undisturbed E params ctx s earlier item) :
    ∃ a ∈ E.reads params ctx item.1 item.2 s,
      (@runRound E'.toEvm params ctx s before).1.account a ≠ s.account a := by
  -- the hypotheses carry over to the other EVM, where the general lemma applies
  have hmem : ∀ other ∈ before, other ∈ round := fun other ho =>
    hsub.subset (List.mem_append_left _ ho)
  have hitem : item ∈ round := hsub.subset (List.mem_append_right _ List.mem_cons_self)
  have hund' : before.Pairwise (@Undisturbed E' params ctx s) :=
    hund.imp_of_mem fun h₁ h₂ hpair => (h.undisturbed_iff (hmem _ h₁) (hmem _ h₂)).mpr hpair
  have hacc' := @Accepted.sublist E'.toEvm params ctx s round _ (h.accepted hacc) hsub
  obtain ⟨a, ha, hne⟩ := @Chainname.disturbed_reads E' params ctx s before earlier item hacc' hund'
    (fun other ho => hfull other (hmem other ho)) hearlier
    fun hpair => hdist ((h.undisturbed_iff (hmem _ hearlier) hitem).mp hpair)
  exact ⟨a, h.reads_eq item hitem ▸ ha, hne⟩

end Alike

/-! ### Leaving the track -/

/-- Where an EVM goes that has left the track: a result and changes that depend only on the
accounts in `reads`. -/
structure Detour where
  run : WorldState → Option (ExecutionResult × EvmState)
  reads : Finset Address
  run_congr : ∀ S S', (∀ a ∈ reads, S'.account a = S.account a) → run S' = run S
  mem_reads : ∀ {S result changes}, run S = some (result, changes) → ∀ a ∈ changes, a ∈ reads
  absent_iff : ∀ {S result changes a entry}, run S = some (result, changes) →
    changes.lookup a = some entry → entry.loadedAsNotExisting = (S.account a).isNone
  nonce_ne : ∀ {S result changes a entry}, run S = some (result, changes) →
    changes.lookup a = some entry → entry.created = true ∨ entry.selfdestructed = true →
      entry.info.nonce ≠ (infoOf (S.account a)).nonce

namespace Detour

/-- The detour that changes nothing and has the result `otherwise`. -/
def idle (otherwise : Option ExecutionResult) : Detour where
  run _ := otherwise.map fun result => (result, ∅)
  reads := ∅
  run_congr _ _ _ := rfl
  mem_reads h a ha := by
    obtain ⟨result, -, heq⟩ := Option.map_eq_some_iff.mp h
    rw [← (Prod.mk.inj heq).2] at ha
    exact absurd ha Finmap.notMem_empty
  absent_iff h hentry := by
    obtain ⟨result, -, heq⟩ := Option.map_eq_some_iff.mp h
    rw [← (Prod.mk.inj heq).2, Finmap.lookup_empty] at hentry
    exact absurd hentry.symm (Option.some_ne_none _)
  nonce_ne h hentry := by
    obtain ⟨result, -, heq⟩ := Option.map_eq_some_iff.mp h
    rw [← (Prod.mk.inj heq).2, Finmap.lookup_empty] at hentry
    exact absurd hentry.symm (Option.some_ne_none _)

/-- An account with another nonce. -/
def markEntry (account : Option AccountState) (nonce : UInt64) : RevmAccount where
  info := { infoOf account with nonce := nonce }
  code := none
  storage := ∅
  touched := true
  created := false
  selfdestructed := false
  loadedAsNotExisting := account.isNone

/-- The change set of a mark. -/
def markChanges (S : WorldState) (a : Address) (nonce : UInt64) : EvmState :=
  Finmap.singleton a (markEntry (S.account a) nonce)

theorem lookup_markChanges {S : WorldState} {a b : Address} {nonce : UInt64} {entry : RevmAccount}
    (h : (markChanges S a nonce).lookup b = some entry) :
    b = a ∧ entry = markEntry (S.account a) nonce := by
  have hb : b = a := (Finmap.mem_singleton _ _ _).mp (Maps.mem_of_lookup h)
  subst hb
  unfold markChanges at h
  rw [Finmap.lookup_singleton_eq] at h
  exact ⟨rfl, (Option.some.inj h).symm⟩

/-- The detour that is executable and leaves `nonce` at the account `a`. -/
def mark (a : Address) (nonce : UInt64) : Detour where
  run S := some (⟨true, 0, []⟩, markChanges S a nonce)
  reads := {a}
  run_congr S S' h := by
    unfold markChanges
    rw [h a (Finset.mem_singleton_self a)]
  mem_reads h b hb := by
    rw [← (Prod.mk.inj (Option.some.inj h)).2] at hb
    exact Finset.mem_singleton.mpr ((Finmap.mem_singleton _ _ _).mp hb)
  absent_iff h hentry := by
    rw [← (Prod.mk.inj (Option.some.inj h)).2] at hentry
    obtain ⟨rfl, rfl⟩ := lookup_markChanges hentry
    rfl
  nonce_ne h hentry hflag := by
    rw [← (Prod.mk.inj (Option.some.inj h)).2] at hentry
    obtain ⟨rfl, rfl⟩ := lookup_markChanges hentry
    -- a mark is neither created nor self-destructed
    obtain hcreated | hdestructed := hflag
    · exact absurd hcreated Bool.false_ne_true
    · exact absurd hdestructed Bool.false_ne_true

end Detour

/-- What `E` reads in `s` is in `S` as it is in `s`. -/
def OnTrack (E : LocalEvm) (s : WorldState) (params : ChainParams) (ctx : ChainBlockCtx)
    (miner : Address) (tx : ChainTx) (S : WorldState) : Prop :=
  ∀ a ∈ E.reads params ctx miner tx s, S.account a = s.account a

instance (E : LocalEvm) (s : WorldState) (params : ChainParams) (ctx : ChainBlockCtx)
    (miner : Address) (tx : ChainTx) (S : WorldState) :
    Decidable (OnTrack E s params ctx miner tx S) :=
  Finset.decidableDforallFinset

section Detour

variable {E : LocalEvm} {s S : WorldState} {d : Detour} {params : ChainParams}
  {ctx : ChainBlockCtx} {miner : Address} {tx : ChainTx}

variable (E s d) in
/-- The run of an EVM that behaves like `E` in `s` as long as it is on track. -/
def detourRun (params : ChainParams) (ctx : ChainBlockCtx) (miner : Address) (tx : ChainTx)
    (S : WorldState) : Option (ExecutionResult × EvmState) :=
  if OnTrack E s params ctx miner tx S then E.run params ctx miner tx s else d.run S

variable (E s d) in
/-- What such a run reads: enough to see that it is on track, and what the detour reads when
it is not. -/
def detourReads (params : ChainParams) (ctx : ChainBlockCtx) (miner : Address) (tx : ChainTx)
    (S : WorldState) : Finset Address :=
  if OnTrack E s params ctx miner tx S then E.reads params ctx miner tx s
  else E.reads params ctx miner tx s ∪ d.reads

theorem subset_detourReads : E.reads params ctx miner tx s
    ⊆ detourReads E s d params ctx miner tx S := by
  unfold detourReads
  split
  · exact Finset.Subset.refl _
  · exact Finset.subset_union_left

/-- What agrees with `S` on the accounts read in `S` is on track if `S` is. -/
theorem onTrack_congr {S' : WorldState}
    (h : ∀ a ∈ detourReads E s d params ctx miner tx S, S'.account a = S.account a) :
    OnTrack E s params ctx miner tx S' ↔ OnTrack E s params ctx miner tx S := by
  refine ⟨fun hall a ha => ?_, fun hall a ha => ?_⟩
  · calc S.account a = S'.account a := (h a (subset_detourReads ha)).symm
      _ = s.account a := hall a ha
  · calc S'.account a = S.account a := h a (subset_detourReads ha)
      _ = s.account a := hall a ha

variable (E s d) in
/-- The detour with the reward. -/
@[reducible] def detourEvm : Evm where
  transact params ctx miner tx S :=
    (detourRun E s d params ctx miner tx S).map fun out =>
      (out.1, rewarded S miner (E.fee params ctx tx out.1) out.2)
  loaded params ctx miner tx S := insert miner (detourReads E s d params ctx miner tx S)

variable (E s d) in
/-- The EVM with a detour is an EVM whose runs depend only on what they read. -/
@[reducible] def detour : LocalEvm where
  toEvm := detourEvm E s d
  run := detourRun E s d
  reads := detourReads E s d
  fee := E.fee
  transact_eq _ _ _ _ _ := rfl
  loaded_eq _ _ _ _ _ _ := rfl
  run_congr params ctx miner tx S S' h := by
    unfold detourRun
    by_cases htrack : OnTrack E s params ctx miner tx S
    · rw [if_pos htrack, if_pos ((onTrack_congr h).mpr htrack)]
    · rw [if_neg htrack, if_neg fun htrack' => htrack ((onTrack_congr h).mp htrack')]
      refine d.run_congr S S' fun a ha => h a ?_
      unfold detourReads
      rw [if_neg htrack]
      exact Finset.mem_union_right _ ha
  mem_reads {params ctx miner tx S result changes} h a ha := by
    unfold detourRun at h
    unfold detourReads
    by_cases htrack : OnTrack E s params ctx miner tx S
    · rw [if_pos htrack] at h ⊢
      exact E.mem_reads h a ha
    · rw [if_neg htrack] at h ⊢
      exact Finset.mem_union_right _ (d.mem_reads h a ha)
  absent_iff {params ctx miner tx S result changes a entry} h hentry := by
    unfold detourRun at h
    by_cases htrack : OnTrack E s params ctx miner tx S
    · -- a changed account is read, so it is the one of `s`
      rw [if_pos htrack] at h
      rw [htrack a (E.mem_reads h a (Maps.mem_of_lookup hentry))]
      exact E.absent_iff h hentry
    · rw [if_neg htrack] at h
      exact d.absent_iff h hentry
  nonce_ne {params ctx miner tx S result changes a entry} h hentry hflag := by
    unfold detourRun at h
    by_cases htrack : OnTrack E s params ctx miner tx S
    · rw [if_pos htrack] at h
      rw [htrack a (E.mem_reads h a (Maps.mem_of_lookup hentry))]
      exact E.nonce_ne h hentry hflag
    · rw [if_neg htrack] at h
      exact d.nonce_ne h hentry hflag

variable (E s d) in
/-- Before the round nobody has left the track. -/
theorem alike_detour (params : ChainParams) (ctx : ChainBlockCtx)
    (round : List (Address × ChainTx)) : Alike E (detour E s d) params ctx s round := by
  refine ⟨fun item _ => ?_, fun item _ => ?_, fun _ _ _ => rfl⟩
  · exact if_pos fun _ _ => rfl
  · exact if_pos fun _ _ => rfl

/-- Who finds an account changed that `E` reads is off the track. -/
theorem not_onTrack {a : Address} (ha : a ∈ E.reads params ctx miner tx s)
    (hne : S.account a ≠ s.account a) : ¬ OnTrack E s params ctx miner tx S :=
  fun htrack => hne (htrack a ha)

theorem transact_detour (h : ¬ OnTrack E s params ctx miner tx S) :
    (detour E s d).transact params ctx miner tx S = (d.run S).map fun out =>
      (out.1, rewarded S miner (E.fee params ctx tx out.1) out.2) := by
  show (detourRun E s d params ctx miner tx S).map _ = _
  unfold detourRun
  rw [if_neg h]

end Detour

/-- A list whose pairs are not all related has a first member that some earlier one is not
related to. -/
theorem exists_first_not_pairwise {α : Type} {R : α → α → Prop} {l : List α}
    (h : ¬ l.Pairwise R) : ∃ before x after, l = before ++ x :: after ∧ before.Pairwise R ∧
      ∃ y ∈ before, ¬ R y x := by
  -- from the front: the first element that breaks the pairs with those before it
  induction l using List.reverseRecOn with
  | nil => exact absurd List.Pairwise.nil h
  | append_singleton l x ih =>
    by_cases hl : l.Pairwise R
    · refine ⟨l, x, [], rfl, hl, ?_⟩
      by_contra hno
      push Not at hno
      refine h (List.pairwise_append.mpr ⟨hl, List.pairwise_singleton R x, fun y hy z hz => ?_⟩)
      rw [List.mem_singleton.mp hz]
      exact hno y hy
    · -- the break is already inside `l`
      obtain ⟨before, y, after, hsplit, hrest⟩ := ih hl
      exact ⟨before, y, after ++ [x], by rw [hsplit]; simp, hrest⟩

/-- **Some EVM alike goes wrong.** If a pair of an accepted round is disturbed, there is an
EVM that behaves alike before the round, and a transaction whose turn comes out otherwise
than its speculation: executed if that was not executable, not executable if it was. -/
theorem exists_detour (E : LocalEvm) {params : ChainParams} {ctx : ChainBlockCtx}
    {s : WorldState} {round : List (Address × ChainTx)}
    (hacc : @Accepted E.toEvm params ctx s round) (hfull : NoneFull s round)
    (hdist : ¬ round.Pairwise (@Undisturbed E params ctx s)) :
    ∃ E', Alike E E' params ctx s round ∧ ∃ before item after, round = before ++ item :: after ∧
      ¬ ((@speculation E'.toEvm params ctx s item).result = none ↔
        E'.transact params ctx item.1 item.2 (@runRound E'.toEvm params ctx s before).1 = none) := by
  obtain ⟨before, item, after, hsplit, hund, earlier, hearlier, hpair⟩ :=
    exists_first_not_pairwise hdist
  have hsub := sublist_of_split hsplit
  have hitem : item ∈ round := hsub.subset (List.mem_append_right _ List.mem_cons_self)
  -- whatever the detour leads to, its transaction takes it
  have htakes : ∀ otherwise, ((detour E s (.idle otherwise)).transact params ctx item.1 item.2
      (@runRound (detourEvm E s (.idle otherwise)) params ctx s before).1).map Prod.fst
        = otherwise := by
    intro otherwise
    obtain ⟨a, ha, hne⟩ := (alike_detour E s (.idle otherwise) params ctx round).disturbed_reads
      hacc hfull hsub hund hearlier hpair
    rw [transact_detour (not_onTrack ha hne)]
    cases otherwise with
    | none => rfl
    | some result => rfl
  by_cases hres : (@speculation E.toEvm params ctx s item).result = none
  · have halike := alike_detour E s (.idle (some ⟨true, 0, []⟩)) params ctx round
    refine ⟨_, halike, before, item, after, hsplit, fun hiff => ?_⟩
    rw [halike.speculation_eq hitem] at hiff
    have htake := htakes (some ⟨true, 0, []⟩)
    rw [hiff.mp hres] at htake
    exact Option.some_ne_none _ htake.symm
  · have halike := alike_detour E s (.idle none) params ctx round
    refine ⟨_, halike, before, item, after, hsplit, fun hiff => ?_⟩
    rw [halike.speculation_eq hitem] at hiff
    exact hres (hiff.mpr (Option.map_eq_none_iff.mp (htakes none)))

/-! ### A mark stays -/

/-- What is committed of an entry has the nonce of the entry, unless the account is destroyed. -/
theorem nonce_committed {entry : RevmAccount} (old : Option AccountState)
    (htouched : entry.touched = true) (hdestructed : entry.selfdestructed = false) :
    (infoOf (WorldState.committed entry old)).nonce = entry.info.nonce := by
  unfold WorldState.committed
  rw [htouched, hdestructed]
  rw [if_neg (by simp), if_neg Bool.false_ne_true]
  split
  · next hempty =>
    -- an empty account is removed, and its nonce was zero
    simp only [Bool.and_eq_true, AccountInfo.isEmpty, decide_eq_true_eq] at hempty
    rw [hempty.1.2]
    rfl
  · rfl

/-- The reward of a beneficiary that the run has not changed keeps its nonce. -/
theorem nonce_reward {S : WorldState} {a miner : Address} {fee : B256} {changes : EvmState}
    (h : a ∉ changes) :
    (infoOf ((S.commit (rewarded S miner fee changes)).account a)).nonce
      = (infoOf (S.account a)).nonce := by
  rw [account_commit]
  by_cases ha : a = miner
  · subst ha
    rw [lookup_rewarded_self, Finmap.lookup_eq_none.mpr h]
    exact nonce_committed _ rfl rfl
  · rw [lookup_rewarded_of_ne ha, Finmap.lookup_eq_none.mpr h]
    rfl

/-- A mark is committed, whether or not the account is rewarded as well. -/
theorem nonce_mark (S : WorldState) (a miner : Address) (fee : B256) (nonce : UInt64) :
    (infoOf ((S.commit (rewarded S miner fee
      (Detour.markChanges S a nonce))).account a)).nonce = nonce := by
  rw [account_commit]
  unfold Detour.markChanges
  by_cases ha : a = miner
  · subst ha
    rw [lookup_rewarded_self, Finmap.lookup_singleton_eq]
    exact nonce_committed _ rfl rfl
  · rw [lookup_rewarded_of_ne ha, Finmap.lookup_singleton_eq]
    exact nonce_committed _ rfl rfl

section Mark

variable {E : LocalEvm} {s S : WorldState} {a : Address} {nonce : UInt64} {params : ChainParams}
  {ctx : ChainBlockCtx}

/-- Off the track a transaction leaves its mark. -/
theorem mark_left {item : Address × ChainTx} (h : ¬ OnTrack E s params ctx item.1 item.2 S) :
    (infoOf ((@runRound (detourEvm E s (.mark a nonce)) params ctx S [item]).1.account a)).nonce
      = nonce := by
  rw [@runRound_cons_some (detourEvm E s (.mark a nonce)) _ _ _ _ _ (transact_detour h)]
  exact nonce_mark S a item.1 _ nonce

/-- **A mark stays.** Where the nonce is another one than in `s`, no transaction changes it:
on track it does not read the account, and off the track it leaves the same mark. -/
theorem mark_stays (hnonce : nonce ≠ (infoOf (s.account a)).nonce)
    (hS : (infoOf (S.account a)).nonce = nonce) (round : List (Address × ChainTx)) :
    (infoOf ((@runRound (detourEvm E s (.mark a nonce)) params ctx S round).1.account a)).nonce
      = nonce := by
  -- either the detour is taken, which marks the account again, or it was marked and is left alone
  induction round generalizing S with
  | nil => exact hS
  | cons item round ih =>
    by_cases htrack : OnTrack E s params ctx item.1 item.2 S
    · -- the account does not look as in `s`, so it is not among those read, nor changed
      have hunread : a ∉ E.reads params ctx item.1 item.2 s := by
        intro ha
        rw [htrack a ha] at hS
        exact hnonce hS.symm
      have htransact : (detour E s (.mark a nonce)).transact params ctx item.1 item.2 S
          = (E.run params ctx item.1 item.2 s).map fun out =>
            (out.1, rewarded S item.1 (E.fee params ctx item.2 out.1) out.2) := by
        show (detourRun E s _ params ctx item.1 item.2 S).map _ = _
        unfold detourRun
        rw [if_pos htrack]
      cases hrun : E.run params ctx item.1 item.2 s with
      | none =>
        rw [hrun] at htransact
        rw [@runRound_cons_none (detourEvm E s (.mark a nonce)) _ _ _ _ htransact]
        exact ih hS
      | some out =>
        rw [hrun] at htransact
        rw [@runRound_cons_some (detourEvm E s (.mark a nonce)) _ _ _ _ _ htransact]
        refine ih ?_
        rw [nonce_reward fun hm => hunread (E.mem_reads hrun a hm)]
        exact hS
    · rw [@runRound_cons_some (detourEvm E s (.mark a nonce)) _ _ _ _ _ (transact_detour htrack)]
      exact ih (nonce_mark S a item.1 _ nonce)

end Mark

/-- **Some EVM alike repairs a failure.** If a transaction of an accepted round is not
executable before it, reads an account, and a pair up to it is disturbed, then there is an EVM
that behaves alike before the round and executes the transaction when its turn comes. -/
theorem exists_repair (E : LocalEvm) {params : ChainParams} {ctx : ChainBlockCtx}
    {s : WorldState} {round before after : List (Address × ChainTx)} {item : Address × ChainTx}
    (hacc : @Accepted E.toEvm params ctx s round) (hfull : NoneFull s round)
    (hsplit : round = before ++ item :: after)
    (hreads : (@readsOf E params ctx s item).Nonempty)
    (hdist : ¬ (before ++ [item]).Pairwise (@Undisturbed E params ctx s)) :
    ∃ E', Alike E E' params ctx s round ∧
      E'.transact params ctx item.1 item.2 (@runRound E'.toEvm params ctx s before).1 ≠ none := by
  obtain ⟨a, ha⟩ := hreads
  set nonce := (infoOf (s.account a)).nonce + 1 with hnonceDef
  have hnonce : nonce ≠ (infoOf (s.account a)).nonce := by
    rw [hnonceDef]
    simp
  have halike := alike_detour E s (.mark a nonce) params ctx round
  refine ⟨detour E s (.mark a nonce), halike, ?_⟩
  -- off the track the transaction is executed
  suffices hoff : ¬ OnTrack E s params ctx item.1 item.2
      (@runRound (detourEvm E s (.mark a nonce)) params ctx s before).1 by
    rw [transact_detour hoff]
    exact Option.some_ne_none _
  obtain ⟨first, x, rest, hfirst, hund, earlier, hearlier, hpair⟩ := exists_first_not_pairwise hdist
  have hsub := (sublist_of_split hfirst).trans (sublist_of_split hsplit)
  -- the first disturbed transaction finds an account that it reads changed
  have hoff : ¬ OnTrack E s params ctx x.1 x.2
      (@runRound (detourEvm E s (.mark a nonce)) params ctx s first).1 := by
    obtain ⟨b, hb, hne⟩ := halike.disturbed_reads hacc hfull hsub hund hearlier hpair
    exact not_onTrack hb hne
  cases rest using List.reverseRecOn with
  | nil =>
    -- it is the failing transaction itself
    obtain ⟨rfl, hitem⟩ := List.append_inj' hfirst rfl
    rw [← List.cons.inj hitem |>.1] at hoff
    exact hoff
  | append_singleton rest last =>
    -- it comes before the failing one, and leaves its mark
    have hbefore : before = first ++ [x] ++ rest := by
      rw [← List.cons_append, ← List.append_assoc] at hfirst
      rw [(List.append_inj' hfirst rfl).1]
      simp
    refine not_onTrack ha fun hsame => hnonce ?_
    rw [← hsame, hbefore]
    rw [@runRound_append (detourEvm E s (.mark a nonce)),
      @runRound_append (detourEvm E s (.mark a nonce)) _ _ _ first [x]]
    exact (mark_stays hnonce (mark_left hoff) rest).symm

end Chainname
