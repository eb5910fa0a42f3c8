import Chainname.Execution.CodeByHash

/-!
# What a commit should leave

A change set says of every account that the EVM loaded what has become of it. `CommitsExactly`
says what should be read of a world state after it has been committed: accounts that were not
touched are as they were, those that were destroyed or are empty in the sense of EIP-161 are gone,
and every other one has its new information, its new slots and its code.

A commit removes an empty account only if the EVM loaded it as one that does not exist. An empty
account that is there, as a genesis allocation may put it there, stays when it is touched.
`commit_exact_iff` says that this is the only way in which a commit is not exact.

The entries of a change set come out of a hash map in no particular order, so all of it is said of
every order.
-/

namespace Chainname

namespace WorldState

/-- Reads a storage slot. Unset slots read as zero. -/
def storageSlot (s : WorldState) (address : Address) (slot : B256) : B256 :=
  ((s.account address).bind fun account => account.storage.lookup slot).getD 0

/-- `code`: reads an account's code, if any. -/
def codeAt (s : WorldState) (address : Address) : Option Bytecode :=
  (s.account address).bind fun account =>
    if account.info.codeHash = keccak256Empty then none else s.code.lookup account.info.codeHash

/-- Commits the entries of a change set in an order. -/
def commitAll (s : WorldState) (order : List (Address × RevmAccount)) : WorldState :=
  order.foldl (fun s change => s.commitOne change.1 change.2) s

/-- No slot of an account is stored with the value zero. -/
def NoZeroSlots (account : Option AccountState) : Prop :=
  ∀ state slot, account = some state → state.storage.lookup slot ≠ some 0

end WorldState

namespace RevmAccount

/-- The account is to be gone: it was destroyed, or is empty in the sense of EIP-161. -/
def Vanishes (entry : RevmAccount) : Prop :=
  entry.selfdestructed = true ∨ entry.info.isEmpty = true

/-- The entry sets the code of a hash. -/
structure SetsCode (entry : RevmAccount) (hash : B256) (bytes : Bytecode) : Prop where
  touched : entry.touched = true
  stays : ¬ entry.Vanishes
  code : entry.code = some bytes
  ne_nil : bytes ≠ []
  codeHash : entry.info.codeHash = hash

end RevmAccount

/-- What a world state should be after a change set has been committed. -/
structure CommitsExactly (s : WorldState) (changes : EvmState) (S : WorldState) : Prop where
  untouched : ∀ a, (∀ entry, changes.lookup a = some entry → entry.touched = false) →
    S.account a = s.account a
  vanished : ∀ a entry, changes.lookup a = some entry → entry.touched = true →
    entry.Vanishes → S.account a = none
  stored : ∀ a entry, changes.lookup a = some entry → entry.touched = true → ¬ entry.Vanishes →
    ∃ account, S.account a = some account ∧ account.info = entry.info ∧
      ∀ slot, S.storageSlot a slot = (entry.storage.lookup slot).getD
        (if entry.created then 0 else s.storageSlot a slot)
  noZeroSlots : ∀ a, WorldState.NoZeroSlots (s.account a) → WorldState.NoZeroSlots (S.account a)
  /-- What is registered under a hash has been set, or was registered. -/
  code : ∀ hash, (∃ a entry bytes, changes.lookup a = some entry ∧ entry.SetsCode hash bytes ∧
      S.code.lookup hash = some bytes) ∨
    (∀ a entry bytes, changes.lookup a = some entry → ¬ entry.SetsCode hash bytes) ∧
      S.code.lookup hash = s.code.lookup hash
  /-- The code of a stored account can be read, if it was set or was registered. -/
  retrievable : ∀ a entry, changes.lookup a = some entry → entry.touched = true →
    ¬ entry.Vanishes → entry.info.codeHash ≠ keccak256Empty →
    (∃ bytes, entry.code = some bytes ∧ bytes ≠ []) ∨ entry.info.codeHash ∈ s.code →
    (S.codeAt a).isSome = true
  blockHashes : S.blockHashes = s.blockHashes

/-- Whatever is touched and empty was loaded as not existing, or has been destroyed. -/
def EmptyOnlyIfNew (changes : EvmState) : Prop :=
  ∀ a entry, changes.lookup a = some entry → entry.touched = true → entry.selfdestructed = false →
    entry.info.isEmpty = true → entry.loadedAsNotExisting = true

namespace WorldState

/-! ### One entry -/

section Entry

variable {entry : RevmAccount} {storage writes : Map B256 B256} {code : Map B256 Bytecode}

/-- **One slot after the writes.** -/
theorem lookup_writeStorage (storage writes : Map B256 B256) (slot : B256) :
    (writeStorage storage writes).lookup slot = (writes.lookup slot).elim (storage.lookup slot)
      fun value => if value = 0 then none else some value := by
  -- entry by entry: a zero erases the slot, another value overwrites it
  refine Maps.foldl_toList_get (fun (storage : Map B256 B256) slot => storage.lookup slot)
    (fun value _ => if value = 0 then none else some value) ?_ ?_ writes storage slot
  · intro storage slot value
    split
    · exact Finmap.lookup_erase _ _
    · exact Finmap.lookup_insert _
  · intro storage slot other value hne
    dsimp only
    split
    · exact Finmap.lookup_erase_ne hne
    · exact Finmap.lookup_insert_of_ne _ hne

/-- What a slot reads as after the writes. -/
theorem getD_lookup_writeStorage (storage writes : Map B256 B256) (slot : B256) :
    ((writeStorage storage writes).lookup slot).getD 0
      = (writes.lookup slot).getD ((storage.lookup slot).getD 0) := by
  rw [lookup_writeStorage]
  cases writes.lookup slot with
  | none => rfl
  | some value =>
    by_cases hvalue : value = 0
    · rw [Option.elim_some, if_pos hvalue, hvalue]
      rfl
    · rw [Option.elim_some, if_neg hvalue]
      rfl

/-- Writing stores no zero. -/
theorem lookup_writeStorage_ne_zero {slot : B256} (h : storage.lookup slot ≠ some 0) :
    (writeStorage storage writes).lookup slot ≠ some 0 := by
  rw [lookup_writeStorage]
  cases writes.lookup slot with
  | none => exact h
  | some value =>
    rw [Option.elim_some]
    split
    · exact (Option.some_ne_none 0).symm
    · next hvalue => exact fun he => hvalue (Option.some.inj he)

theorem committed_of_untouched (h : entry.touched = false) (old : Option AccountState) :
    committed entry old = old := by
  unfold committed
  rw [h]
  rfl

/-- An entry that is to go leaves nothing, if an empty one was loaded as not existing. -/
theorem committed_of_vanishes (htouched : entry.touched = true) (h : entry.Vanishes)
    (hnew : entry.selfdestructed = false → entry.info.isEmpty = true →
      entry.loadedAsNotExisting = true) (old : Option AccountState) :
    committed entry old = none := by
  unfold committed
  rw [htouched, Bool.not_true, if_neg Bool.false_ne_true]
  cases hdestroyed : entry.selfdestructed with
  | true => exact if_pos rfl
  | false =>
    have hempty : entry.info.isEmpty = true := h.resolve_left (by rw [hdestroyed]; decide)
    rw [if_neg Bool.false_ne_true, hempty, hnew hdestroyed hempty]
    exact if_pos rfl

/-- What is not removed is stored. -/
theorem committed_of_stays (htouched : entry.touched = true)
    (hdestroyed : entry.selfdestructed = false)
    (hstays : (entry.info.isEmpty && entry.loadedAsNotExisting) = false)
    (old : Option AccountState) : committed entry old = some
      { info := entry.info
        storage := writeStorage (if entry.created then ∅ else (old.getD .default).storage)
          entry.storage } := by
  unfold committed
  rw [htouched, hdestroyed, hstays]
  rfl

theorem committed_of_not_vanishes (htouched : entry.touched = true) (h : ¬ entry.Vanishes)
    (old : Option AccountState) : committed entry old = some
      { info := entry.info
        storage := writeStorage (if entry.created then ∅ else (old.getD .default).storage)
          entry.storage } := by
  obtain ⟨hdestroyed, hempty⟩ := not_or.mp h
  rw [Bool.not_eq_true] at hdestroyed hempty
  exact committed_of_stays htouched hdestroyed (by rw [hempty, Bool.false_and]) old

/-- An account without zero slots is left without zero slots. -/
theorem noZeroSlots_committed {old : Option AccountState} (h : NoZeroSlots old) :
    NoZeroSlots (committed entry old) := by
  intro state slot hstate
  unfold committed at hstate
  split at hstate
  · -- the ways a change ends, in the order of `commit`
    exact h state slot hstate
  split at hstate
  · cases hstate
  split at hstate
  · cases hstate
  -- what is written over the old storage is never a zero
  obtain rfl := Option.some.inj hstate
  refine lookup_writeStorage_ne_zero ?_
  split
  · exact (Option.some_ne_none 0).symm
  · cases old with
    | none => exact (Option.some_ne_none 0).symm
    | some old => exact h old slot rfl

/-- An entry that is stored, in terms of what it reports. -/
theorem stored_iff (hnew : entry.touched = true → entry.selfdestructed = false →
    entry.info.isEmpty = true → entry.loadedAsNotExisting = true) :
    stored entry = true ↔ entry.touched = true ∧ ¬ entry.Vanishes := by
  unfold stored RevmAccount.Vanishes
  cases htouched : entry.touched with
  | false => simp
  | true =>
    cases hdestroyed : entry.selfdestructed with
    | true => simp
    | false =>
      cases hempty : entry.info.isEmpty with
      | false => simp
      | true => simp [hnew htouched hdestroyed hempty]

/-- An entry registers code under its hash, or changes nothing there. -/
theorem lookup_commitCode (entry : RevmAccount) (code : Map B256 Bytecode) (hash : B256) :
    (∃ bytes, stored entry = true ∧ entry.code = some bytes ∧ bytes ≠ [] ∧
        entry.info.codeHash = hash ∧ (commitCode entry code).lookup hash = some bytes) ∨
      (∀ bytes, ¬ (stored entry = true ∧ entry.code = some bytes ∧ bytes ≠ [] ∧
        entry.info.codeHash = hash)) ∧ (commitCode entry code).lookup hash = code.lookup hash := by
  unfold commitCode
  -- an account that goes registers no code
  split
  · next hgone =>
    have hstored : stored entry = false := by
      unfold stored
      rw [hgone]
      rfl
    refine Or.inr ⟨fun bytes h => ?_, rfl⟩
    rw [hstored] at h
    exact Bool.false_ne_true h.1
  next hkept =>
  rw [Bool.not_eq_true] at hkept
  have hstored : stored entry = true := by
    unfold stored
    rw [hkept]
    rfl
  cases hcode : entry.code with
  | none => exact Or.inr ⟨fun bytes h => (nomatch h.2.1), rfl⟩
  | some bytes =>
    dsimp only
    split
    · next hnil =>
      refine Or.inr ⟨fun bytes' h => h.2.2.1 ?_, rfl⟩
      rw [← Option.some.inj h.2.1, hnil]
    · -- code is registered under its own hash, only if there is some
      next hne =>
      by_cases hhash : entry.info.codeHash = hash
      · subst hhash
        exact Or.inl ⟨bytes, hstored, rfl, hne, rfl, Finmap.lookup_insert _⟩
      · exact Or.inr ⟨fun _ h => hhash h.2.2.2, Finmap.lookup_insert_of_ne _ (Ne.symm hhash)⟩

end Entry

/-! ### All entries -/

section Entries

variable {s : WorldState} {changes : EvmState} {order : List (Address × RevmAccount)}

/-- **One address after a commit**, in whatever order. -/
theorem account_commitAll (horder : order.Perm (Maps.toList changes)) (a : Address) :
    (s.commitAll order).account a
      = (changes.lookup a).elim (s.account a) fun entry => committed entry (s.account a) := by
  refine Maps.foldl_get_of_perm account committed ?_ ?_ horder s a
  · intro s a entry
    exact (lookup_commitOne s a a entry).trans (if_pos rfl)
  · intro s a b entry hab
    exact (lookup_commitOne s b a entry).trans (if_neg hab)

theorem noZeroSlots_commitAll (horder : order.Perm (Maps.toList changes)) {a : Address}
    (h : NoZeroSlots (s.account a)) : NoZeroSlots ((s.commitAll order).account a) := by
  rw [account_commitAll horder]
  cases changes.lookup a with
  | none => exact h
  | some entry => exact noZeroSlots_committed h

theorem blockHashes_commitAll (order : List (Address × RevmAccount)) (s : WorldState) :
    (s.commitAll order).blockHashes = s.blockHashes := by
  induction order generalizing s with
  | nil => rfl
  | cons change order ih => exact ih (s.commitOne change.1 change.2)

/-- **The code of a hash after a commit** is set by an entry, or as it was. -/
theorem lookup_code_commitAll (order : List (Address × RevmAccount)) (s : WorldState)
    (hash : B256) :
    (∃ change ∈ order, ∃ bytes, stored change.2 = true ∧ change.2.code = some bytes ∧
        bytes ≠ [] ∧ change.2.info.codeHash = hash ∧
        (s.commitAll order).code.lookup hash = some bytes) ∨
      (∀ change ∈ order, ∀ bytes, ¬ (stored change.2 = true ∧ change.2.code = some bytes ∧
        bytes ≠ [] ∧ change.2.info.codeHash = hash)) ∧
        (s.commitAll order).code.lookup hash = s.code.lookup hash := by
  induction order generalizing s with
  | nil => exact Or.inr ⟨fun _ h => absurd h List.not_mem_nil, rfl⟩
  | cons change order ih =>
    -- whatever a later entry sets is what is read
    obtain ⟨later, hmem, bytes, h⟩ | ⟨hlater, hsame⟩ := ih (s.commitOne change.1 change.2)
    · exact Or.inl ⟨later, List.mem_cons_of_mem change hmem, bytes, h⟩
    have hread : (s.commitAll (change :: order)).code.lookup hash
        = (commitCode change.2 s.code).lookup hash := hsame
    rw [hread]
    obtain ⟨bytes, hstored, hcode, hne, hhash, hl⟩ | ⟨hnone, hl⟩ :=
      lookup_commitCode change.2 s.code hash
    · exact Or.inl ⟨change, List.mem_cons_self, bytes, hstored, hcode, hne, hhash, hl⟩
    · exact Or.inr ⟨List.forall_mem_cons.mpr ⟨hnone, hlater⟩, hl⟩

/-- The code registered after a commit, if what is touched and empty is new: what some account of
the change set sets, or what was there before. -/
theorem lookup_code_of_emptyOnlyIfNew (horder : order.Perm (Maps.toList changes))
    (h : EmptyOnlyIfNew changes) (hash : B256) :
    (∃ a entry bytes, changes.lookup a = some entry ∧ entry.SetsCode hash bytes ∧
        (s.commitAll order).code.lookup hash = some bytes) ∨
      (∀ a entry bytes, changes.lookup a = some entry → ¬ entry.SetsCode hash bytes) ∧
        (s.commitAll order).code.lookup hash = s.code.lookup hash := by
  have hmem : ∀ {a entry}, (a, entry) ∈ order ↔ changes.lookup a = some entry :=
    horder.mem_iff.trans Maps.mem_toList
  obtain ⟨⟨a, entry⟩, hin, bytes, hstored, hcode, hne, hhash, hl⟩ | ⟨hnone, hl⟩ :=
    lookup_code_commitAll order s hash
  · -- the last entry of the order that stores this hash decides
    have hentry := hmem.mp hin
    obtain ⟨htouched, hstays⟩ := (stored_iff (h a entry hentry)).mp hstored
    exact Or.inl ⟨a, entry, bytes, hentry, ⟨htouched, hstays, hcode, hne, hhash⟩, hl⟩
  · -- were it set, some entry of the order would store it
    refine Or.inr ⟨fun a entry bytes hentry hsets => ?_, hl⟩
    have hstored := (stored_iff (h a entry hentry)).mpr ⟨hsets.touched, hsets.stays⟩
    exact hnone (a, entry) (hmem.mpr hentry) bytes
      ⟨hstored, hsets.code, hsets.ne_nil, hsets.codeHash⟩

/-- An account that is touched and does not vanish has the information and the slots of its
entry. -/
theorem account_of_not_vanishes (horder : order.Perm (Maps.toList changes)) {a : Address}
    {entry : RevmAccount} (hentry : changes.lookup a = some entry)
    (htouched : entry.touched = true) (hstays : ¬ entry.Vanishes) :
    (s.commitAll order).account a = some
      { info := entry.info
        storage := writeStorage
          (if entry.created then ∅ else ((s.account a).getD .default).storage) entry.storage } := by
  rw [account_commitAll horder, hentry, Option.elim_some]
  exact committed_of_not_vanishes htouched hstays (s.account a)

/-- A commit is exact, if what is touched and empty is new. -/
theorem commitsExactly_of_emptyOnlyIfNew (horder : order.Perm (Maps.toList changes))
    (h : EmptyOnlyIfNew changes) : CommitsExactly s changes (s.commitAll order) := by
  have hcode := lookup_code_of_emptyOnlyIfNew (s := s) horder h
  refine ⟨?_, ?_, ?_, ?_, hcode, ?_, blockHashes_commitAll order s⟩
  · intro a huntouched
    rw [account_commitAll horder]
    cases hentry : changes.lookup a with
    | none => rfl
    | some entry => exact committed_of_untouched (huntouched entry hentry) _
  · intro a entry hentry htouched hvanishes
    rw [account_commitAll horder, hentry]
    exact committed_of_vanishes htouched hvanishes (h a entry hentry htouched) _
  · intro a entry hentry htouched hstays
    have haccount := account_of_not_vanishes (s := s) horder hentry htouched hstays
    refine ⟨_, haccount, rfl, fun slot => ?_⟩
    unfold storageSlot
    rw [haccount, Option.bind_some, getD_lookup_writeStorage]
    congr 1
    split
    · rfl
    · -- an account that was not there has no storage to be read
      cases s.account a with
      | none => rfl
      | some old => rfl
  · exact fun a => noZeroSlots_commitAll horder
  · intro a entry hentry htouched hstays hhash hknown
    have haccount := account_of_not_vanishes (s := s) horder hentry htouched hstays
    unfold codeAt
    rw [haccount, Option.bind_some, if_neg hhash]
    obtain ⟨_, _, bytes, -, -, hl⟩ | ⟨hnone, hl⟩ := hcode entry.info.codeHash
    · rw [hl]
      rfl
    · -- nobody sets it, so it was registered
      have hregistered := hknown.resolve_left fun ⟨bytes, hbytes, hne⟩ =>
        hnone a entry bytes hentry ⟨htouched, hstays, hbytes, hne, rfl⟩
      rw [hl]
      exact Finmap.lookup_isSome.mpr hregistered

/-- An empty account that was there is left behind. -/
theorem emptyOnlyIfNew_of_commitsExactly (horder : order.Perm (Maps.toList changes))
    (h : CommitsExactly s changes (s.commitAll order)) : EmptyOnlyIfNew changes := by
  intro a entry hentry htouched hdestroyed hempty
  by_contra hknown
  rw [Bool.not_eq_true] at hknown
  have hgone := h.vanished a entry hentry htouched (Or.inr hempty)
  rw [account_commitAll horder, hentry, Option.elim_some,
    committed_of_stays htouched hdestroyed (by rw [hknown, Bool.and_false])] at hgone
  cases hgone

/-- **When a commit is exact**: whatever is touched and empty, but not destroyed, was loaded as not
existing. In which order the entries are committed makes no difference to this. -/
theorem commit_exact_iff (s : WorldState) (changes : EvmState) :
    (CommitsExactly s changes (s.commit changes) ↔ EmptyOnlyIfNew changes) ∧
      ∀ order, order.Perm (Maps.toList changes) →
        (CommitsExactly s changes (s.commitAll order) ↔ EmptyOnlyIfNew changes) := by
  have hany : ∀ order, order.Perm (Maps.toList changes) →
      (CommitsExactly s changes (s.commitAll order) ↔ EmptyOnlyIfNew changes) := fun order horder =>
    ⟨emptyOnlyIfNew_of_commitsExactly horder, commitsExactly_of_emptyOnlyIfNew horder⟩
  exact ⟨hany (Maps.toList changes) (List.Perm.refl _), hany⟩

end Entries

end WorldState

end Chainname
