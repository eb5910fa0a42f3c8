import Chainname.Library.Maps

/-!
# Tables with a secondary index

A table maps keys to values. Its index files the same keys in another order: under the group of
a value and, within the group, under its slot. `Indexes` says that the two agree, one key under
each group and slot that the table holds a value of, and that no group is kept without a key.

`file` and `unfile` are the two updates of an index. They keep the agreement when the table is
updated along with it (`Indexes.insert`, `Indexes.erase`), and `Indexes.card_slots` counts a
group from either side.
-/

namespace Index

variable {K V G S : Type} [DecidableEq K] [DecidableEq G] [DecidableEq S]

/-- The keys filed under a group, by slot. -/
def slots (index : Map G (Map S K)) (g : G) : Map S K := (index.lookup g).getD ∅

/-- Files a key under a group and a slot. -/
def file (index : Map G (Map S K)) (g : G) (s : S) (k : K) : Map G (Map S K) :=
  index.insert g ((slots index g).insert s k)

/-- Removes what is filed under a group and a slot, and the group if it was the last. -/
def unfile (index : Map G (Map S K)) (g : G) (s : S) : Map G (Map S K) :=
  let rest := (slots index g).erase s
  if rest = ∅ then index.erase g else index.insert g rest

/-- An index of a table by group and slot. -/
structure Indexes (group : V → G) (slot : V → S) (table : Map K V) (index : Map G (Map S K)) :
    Prop where
  /-- A key is filed under the group and the slot of its value, and no other is. -/
  filed : ∀ g s k, (slots index g).lookup s = some k ↔
    ∃ v, table.lookup k = some v ∧ group v = g ∧ slot v = s
  /-- No group is empty. -/
  inhabited : ∀ g m, index.lookup g = some m → m ≠ ∅

omit [DecidableEq K] [DecidableEq S] in
theorem slots_of_lookup {index : Map G (Map S K)} {g : G} {m : Map S K}
    (h : index.lookup g = some m) : slots index g = m := by
  unfold slots
  rw [h, Option.getD_some]

omit [DecidableEq K] in
theorem lookup_slots (index : Map G (Map S K)) (g : G) (s : S) :
    (slots index g).lookup s = (index.lookup g).bind (·.lookup s) := by
  unfold slots
  cases index.lookup g with
  | none => exact Finmap.lookup_empty s
  | some m => rfl

omit [DecidableEq K] in
theorem slots_file (index : Map G (Map S K)) (g g' : G) (s : S) (k : K) :
    slots (file index g s k) g'
      = if g' = g then (slots index g).insert s k else slots index g' := by
  unfold file
  rw [slots, Maps.lookup_insert]
  split
  · rfl
  · rfl

/-- What is left under a group after a removal, whether or not the group is kept. -/
theorem slots_unfile (index : Map G (Map S K)) (g g' : G) (s : S) :
    slots (unfile index g s) g' = if g' = g then (slots index g).erase s else slots index g' := by
  unfold unfile
  dsimp only
  -- the group is dropped when its last slot goes
  split
  · next hempty =>
    rw [slots, Maps.lookup_erase]
    split
    · exact hempty.symm
    · rfl
  · rw [slots, Maps.lookup_insert]
    split
    · rfl
    · rfl

namespace Indexes

variable {group : V → G} {slot : V → S} {table : Map K V} {index : Map G (Map S K)}

theorem empty : Indexes group slot (∅ : Map K V) (∅ : Map G (Map S K)) where
  filed := by
    intro g s k
    simp [slots]
  inhabited := by simp

/-- **A new key in a free slot.** -/
theorem insert (h : Indexes group slot table index) {k : K} {v : V}
    (hk : table.lookup k = none) (hfree : (slots index (group v)).lookup (slot v) = none) :
    Indexes group slot (table.insert k v) (file index (group v) (slot v) k) where
  filed := by
    intro g s k'
    rw [Maps.exists_lookup_insert hk, ← h.filed, slots_file]
    by_cases hg : g = group v
    · subst hg
      rw [if_pos rfl, Maps.lookup_insert]
      by_cases hs : s = slot v
      · -- the slot that was filled: the new key, as no other was there
        subst hs
        simp [hfree, eq_comm]
      · simp [hs, Ne.symm hs]
    · simp [hg, Ne.symm hg]
  inhabited := by
    intro g m hm
    unfold file at hm
    rw [Maps.lookup_insert] at hm
    split at hm
    · -- the group that was written holds at least the new slot
      obtain rfl := Option.some.inj hm
      intro hempty
      have hmem : slot v ∈ (slots index (group v)).insert (slot v) k :=
        Finmap.mem_insert.mpr (Or.inl rfl)
      rw [hempty] at hmem
      exact Finmap.notMem_empty hmem
    · exact h.inhabited g m hm

/-- **A key taken out**, of the table and of its slot. -/
theorem erase (h : Indexes group slot table index) {k : K} {v : V}
    (hk : table.lookup k = some v) :
    Indexes group slot (table.erase k) (unfile index (group v) (slot v)) where
  filed := by
    intro g s k'
    -- the slot that is emptied is the one of `k`, and it is the only one of `k`
    have hslot : (slots index g).lookup s = some k ↔ group v = g ∧ slot v = s := by
      rw [h.filed]
      refine ⟨?_, ?_⟩
      · rintro ⟨w, hw, hgs⟩
        obtain rfl := Option.some.inj (hk.symm.trans hw)
        exact hgs
      · exact fun hgs => ⟨v, hk, hgs⟩
    rw [Maps.exists_lookup_erase, ← h.filed, slots_unfile]
    by_cases hg : g = group v
    · subst hg
      rw [if_pos rfl, Maps.lookup_erase]
      by_cases hs : s = slot v
      · subst hs
        rw [if_pos rfl, hslot.mpr ⟨rfl, rfl⟩]
        refine ⟨?_, ?_⟩
        · intro habs
          cases habs
        · rintro ⟨hne, heq⟩
          exact absurd (Option.some.inj heq).symm hne
      · rw [if_neg hs]
        refine ⟨?_, ?_⟩
        · intro hk'
          refine ⟨?_, hk'⟩
          rintro rfl
          exact hs (hslot.mp hk').2.symm
        · exact And.right
    · rw [if_neg hg]
      refine ⟨?_, ?_⟩
      · intro hk'
        refine ⟨?_, hk'⟩
        rintro rfl
        exact hg (hslot.mp hk').1.symm
      · exact And.right
  inhabited := by
    intro g m hm
    unfold unfile at hm
    dsimp only at hm
    split at hm
    · exact h.inhabited g m (Maps.lookup_erase_eq_some.mp hm).2
    · next hne =>
      rw [Maps.lookup_insert] at hm
      split at hm
      · obtain rfl := Option.some.inj hm
        exact hne
      · exact h.inhabited g m hm

/-- The slots of a group are as many as the keys of its values. -/
theorem card_slots (h : Indexes group slot table index) (g : G) :
    (slots index g).keys.card
      = (table.keys.filter fun k => (table.lookup k).map group = some g).card := by
  -- each slot has one key, and each key has its one slot
  refine Finset.card_bij (fun s hs => ((slots index g).lookup s).get ?_) ?_ ?_ ?_
  · exact Finmap.lookup_isSome.mpr (Finmap.mem_keys.mp hs)
  · intro s hs
    obtain ⟨k, hk⟩ := Maps.mem_iff_exists_lookup.mp (Finmap.mem_keys.mp hs)
    obtain ⟨v, hv, hg, -⟩ := (h.filed g s k).mp hk
    simp only [hk, Option.get_some]
    refine Finset.mem_filter.mpr ⟨Finmap.mem_keys.mpr (Maps.mem_of_lookup hv), ?_⟩
    rw [hv, Option.map_some, hg]
  · intro s hs s' hs' heq
    obtain ⟨k, hk⟩ := Maps.mem_iff_exists_lookup.mp (Finmap.mem_keys.mp hs)
    obtain ⟨k', hk'⟩ := Maps.mem_iff_exists_lookup.mp (Finmap.mem_keys.mp hs')
    simp only [hk, hk', Option.get_some] at heq
    subst heq
    obtain ⟨v, hv, -, hsv⟩ := (h.filed g s k).mp hk
    obtain ⟨v', hv', -, hsv'⟩ := (h.filed g s' k).mp hk'
    obtain rfl := Option.some.inj (hv.symm.trans hv')
    exact hsv.symm.trans hsv'
  · intro k hk
    obtain ⟨-, hg⟩ := Finset.mem_filter.mp hk
    obtain ⟨v, hv, hgv⟩ := Option.map_eq_some_iff.mp hg
    have hfiled := (h.filed g (slot v) k).mpr ⟨v, hv, hgv, rfl⟩
    refine ⟨slot v, Finmap.mem_keys.mpr (Maps.mem_of_lookup hfiled), ?_⟩
    simp only [hfiled, Option.get_some]

end Indexes

end Index
