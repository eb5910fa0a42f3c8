import Chainname.Execution.State

/-!
# The undo journal

A record holds the pre-value of everything a chain block touched, `none` for an account
that did not exist. The first note of an address counts. The three operations are
characterised by what they do to lookups, and through those `Restores` says what a record
is for: applied to the later state, it gives back the accounts of the earlier one.
-/

namespace Chainname

/-- Pre-execution values of the accounts a chain block touched. -/
abbrev UndoRecord := Map Address (Option AccountState)

namespace UndoRecord

/-- Records an account's value before it is modified. Only the first call for an address
has any effect. -/
def note (record : UndoRecord) (address : Address) (s : WorldState) : UndoRecord :=
  if address ∈ record then record else record.insert address (s.account address)

/-- Records the values of several accounts. -/
def noteAll (record : UndoRecord) (addresses : Finset Address) (s : WorldState) : UndoRecord :=
  (Maps.sortedKeys addresses).foldl (fun record address => note record address s) record

/-- Folds a later record into this one: the earlier pre-value wins. -/
def merge (record other : UndoRecord) : UndoRecord :=
  (Maps.toList other).foldl
    (fun record entry => if entry.1 ∈ record then record else record.insert entry.1 entry.2)
    record

/-- Restores one recorded pre-value. -/
def restoreOne (s : WorldState) (address : Address) : Option AccountState → WorldState
  | some account => s.insertAccount address account
  | none => s.removeAccount address

/-- Restores the recorded pre-values. -/
def apply (record : UndoRecord) (s : WorldState) : WorldState :=
  (Maps.toList record).foldl (fun s entry => restoreOne s entry.1 entry.2) s

theorem lookup_note (record : UndoRecord) (a b : Address) (s : WorldState) :
    (note record a s).lookup b =
      (record.lookup b).or (if b = a then some (s.account a) else none) := by
  unfold note
  -- the first note of an address stands
  by_cases ha : a ∈ record
  · obtain ⟨v, hv⟩ := Maps.mem_iff_exists_lookup.mp ha
    rw [if_pos ha]
    by_cases hb : b = a
    · rw [hb, hv]
      rfl
    · rw [if_neg hb, Option.or_none]
  · rw [if_neg ha, Maps.lookup_insert]
    by_cases hb : b = a
    · rw [if_pos hb, if_pos hb, hb, Finmap.lookup_eq_none.mpr ha]
      rfl
    · rw [if_neg hb, if_neg hb, Option.or_none]

theorem lookup_noteAll (record : UndoRecord) (addresses : Finset Address) (s : WorldState)
    (b : Address) :
    (noteAll record addresses s).lookup b =
      (record.lookup b).or (if b ∈ addresses then some (s.account b) else none) := by
  -- the fold over the sorted addresses, from any record
  have hfold : ∀ (l : List Address) (record : UndoRecord),
      (l.foldl (fun record address => note record address s) record).lookup b =
        (record.lookup b).or (if b ∈ l then some (s.account b) else none) := by
    intro l
    induction l with
    | nil => intro record; simp
    | cons a l ih =>
      intro record
      rw [List.foldl_cons, ih, lookup_note, Option.or_assoc]
      congr 1
      by_cases hb : b = a
      · simp [hb]
      · simp [hb]
  unfold noteAll
  rw [hfold]
  simp only [Maps.mem_sortedKeys]

theorem lookup_merge (record other : UndoRecord) (b : Address) :
    (merge record other).lookup b = (record.lookup b).or (other.lookup b) := by
  -- an entry is merged only where nothing is noted
  have hfold := Maps.foldl_toList_get (fun (r : UndoRecord) a => r.lookup a)
    (f := fun r entry => if entry.1 ∈ r then r else r.insert entry.1 entry.2)
    (fun v old => old.or (some v)) ?_ ?_ other record b
  · unfold merge
    refine hfold.trans ?_
    cases other.lookup b with
    | none => exact (Option.or_none).symm
    | some v => rfl
  · intro r a v
    dsimp only
    split
    · next h =>
      obtain ⟨w, hw⟩ := Maps.mem_iff_exists_lookup.mp h
      rw [hw]
      rfl
    · next h =>
      rw [Finmap.lookup_insert, Finmap.lookup_eq_none.mpr h]
      rfl
  · intro r a c v hac
    dsimp only
    split
    · rfl
    · rw [Maps.lookup_insert, if_neg hac]

theorem lookup_apply (record : UndoRecord) (s : WorldState) (a : Address) :
    (apply record s).accounts.lookup a = (record.lookup a).getD (s.accounts.lookup a) := by
  -- entry by entry: the pre-value is put back, or the account removed
  have hfold := Maps.foldl_toList_get (fun (s : WorldState) a => s.accounts.lookup a)
    (f := fun s entry => restoreOne s entry.1 entry.2) (fun prior _ => prior) ?_ ?_ record s a
  · unfold apply
    refine hfold.trans ?_
    cases record.lookup a with
    | none => rfl
    | some prior => rfl
  · intro s a prior
    cases prior with
    | none => rw [restoreOne, WorldState.lookup_removeAccount, if_pos rfl]
    | some account => rw [restoreOne, WorldState.lookup_insertAccount, if_pos rfl]
  · intro s a b prior hab
    cases prior with
    | none => rw [restoreOne, WorldState.lookup_removeAccount, if_neg hab]
    | some account => rw [restoreOne, WorldState.lookup_insertAccount, if_neg hab]

/-- Restoring accounts leaves registered code and block hashes alone. -/
theorem apply_frame (record : UndoRecord) (s : WorldState) :
    (apply record s).code = s.code ∧ (apply record s).blockHashes = s.blockHashes := by
  unfold apply
  generalize Maps.toList record = l
  induction l generalizing s with
  | nil => exact ⟨rfl, rfl⟩
  | cons entry l ih =>
    obtain ⟨hcode, hhashes⟩ := ih (restoreOne s entry.1 entry.2)
    rw [List.foldl_cons, hcode, hhashes]
    cases entry.2 with
    | some account => exact ⟨rfl, rfl⟩
    | none => exact ⟨rfl, rfl⟩

/-- `record` takes the accounts of `after` back to those of `before`. -/
def Restores (record : UndoRecord) (before after : WorldState) : Prop :=
  ∀ a, (record.lookup a).getD (after.accounts.lookup a) = before.accounts.lookup a

theorem Restores.apply {record : UndoRecord} {before after : WorldState}
    (h : Restores record before after) : (apply record after).accounts = before.accounts := by
  refine Finmap.ext_lookup fun a => ?_
  rw [lookup_apply]
  exact h a

/-- Nothing noted, nothing changed. -/
theorem Restores.refl (s : WorldState) : Restores ∅ s s := fun _ => rfl

/-- **Noting before writing.** If whatever is about to change is noted first, the record
still restores the accounts from before the block. -/
theorem Restores.note {record : UndoRecord} {before s s' : WorldState}
    (h : Restores record before s) {addresses : Finset Address}
    (hframe : ∀ a ∉ addresses, s'.accounts.lookup a = s.accounts.lookup a) :
    Restores (noteAll record addresses s) before s' := by
  intro a
  have ha := h a
  rw [lookup_noteAll]
  -- an address noted before keeps its pre-value; a new one is noted as it stands now
  cases hr : record.lookup a with
  | some prior =>
    rw [hr] at ha
    exact ha
  | none =>
    rw [hr] at ha
    by_cases hmem : a ∈ addresses
    · rw [if_pos hmem]
      exact ha
    · rw [if_neg hmem]
      exact (hframe a hmem).trans ha

/-- Noting the keys of a change set, and then committing it. -/
theorem Restores.commit {record : UndoRecord} {before s : WorldState}
    (h : Restores record before s) (changes : EvmState) {addresses : Finset Address}
    (hkeys : changes.keys ⊆ addresses) :
    Restores (noteAll record addresses s) before (s.commit changes) := by
  refine h.note fun a ha => ?_
  have hnone : changes.lookup a = none :=
    Finmap.lookup_eq_none.mpr fun hmem => ha (hkeys (Finmap.mem_keys.mpr hmem))
  rw [WorldState.lookup_commit, hnone]
  rfl

/-- An account whose pre-value is recorded may change once more. -/
theorem Restores.overwrite {record : UndoRecord} {before s s' : WorldState} {a : Address}
    (h : Restores record before s) (ha : a ∈ record)
    (hframe : ∀ b ≠ a, s'.accounts.lookup b = s.accounts.lookup b) :
    Restores record before s' := by
  intro b
  have hb := h b
  by_cases hab : b = a
  · obtain ⟨prior, hprior⟩ := Maps.mem_iff_exists_lookup.mp ha
    rw [hab, hprior] at hb ⊢
    exact hb
  · rw [hframe b hab]
    exact hb

/-- **Records in a row.** Folding in the record of what came later restores the state before
both. -/
theorem Restores.merge {record other : UndoRecord} {before s s' : WorldState}
    (h : Restores record before s) (h' : Restores other s s') :
    Restores (merge record other) before s' := by
  intro a
  have ha := h a
  rw [lookup_merge]
  cases hr : record.lookup a with
  | some prior =>
    rw [hr] at ha
    exact ha
  | none =>
    rw [hr] at ha
    exact (h' a).trans ha

theorem mem_noteAll {record : UndoRecord} {addresses : Finset Address} {s : WorldState}
    {a : Address} : a ∈ noteAll record addresses s ↔ a ∈ record ∨ a ∈ addresses := by
  rw [← Finmap.lookup_isSome, lookup_noteAll, ← Finmap.lookup_isSome (s := record),
    Option.isSome_or, Bool.or_eq_true]
  by_cases ha : a ∈ addresses
  · simp [ha]
  · simp [ha]

/-- Noting twice in the same state is noting once. -/
theorem noteAll_noteAll (record : UndoRecord) (addresses more : Finset Address)
    (s : WorldState) :
    noteAll (noteAll record addresses s) more s = noteAll record (addresses ∪ more) s := by
  refine Finmap.ext_lookup fun a => ?_
  rw [lookup_noteAll, lookup_noteAll, lookup_noteAll, Option.or_assoc]
  congr 1
  by_cases ha : a ∈ addresses
  · simp [ha]
  · simp [ha]

end UndoRecord

end Chainname
